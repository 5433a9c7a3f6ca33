import IntegerCalc.Proofs.Completion

/-! What a token leaves that fails, from any two stacks, also those that no tokens lead to. Only a
closing parenthesis and an operator can fail. They take operators off the top of what waits, each
of which reaches one operand further down. Main statement: there are three ways to fail, of which
exactly one applies, and each tells how far down the operands were taken. -/

namespace IntegerCalc

namespace ReversePolish

/-- Operators take one operand more than there are of them, and leave one value for these. -/
theorem left_of_execute {ops : List Operator} {stack left : List Int} {steps : List Reduction}
    (h : execute (ops.map .apply) stack = ⟨.ok left, steps⟩) :
    (ops = [] ∧ left = stack) ∨
      ops.length < stack.length ∧ ∃ value, left = value :: stack.drop (ops.length + 1) := by
  induction ops generalizing stack steps with
  | nil =>
    obtain ⟨hleft, -⟩ := Execution.mk.inj h
    exact .inl ⟨rfl, (Except.ok.inj hleft).symm⟩
  | cons op ops ih =>
    obtain ⟨lhs, rhs, rest, value, later, rfl, -, hx, -⟩ := execute_apply_eq_ok.1 h
    refine .inr ?_
    rcases ih hx with ⟨rfl, rfl⟩ | ⟨hlength, last, rfl⟩
    · exact ⟨by simp, value, rfl⟩
    · simp only [List.length_cons] at hlength ⊢
      exact ⟨by omega, last, rfl⟩

end ReversePolish

namespace Evaluation

open ReversePolish Pending

theorem reduce_error {op : Operator} {operands left : List Int} {fault : Fault}
    (h : reduce op operands = .error (fault, left)) :
    (fault = .divisionByZero ∧ op = .div ∧ ∃ lhs, operands = 0 :: lhs :: left) ∨
      fault = .malformedExpression ∧ operands.length ≤ 1 ∧ left = [] := by
  match operands with
  | [] | [_] =>
    obtain ⟨rfl, rfl⟩ := Prod.mk.inj (Except.error.inj h)
    exact .inr ⟨rfl, by simp, rfl⟩
  | rhs :: lhs :: rest =>
    rw [reduce] at h
    split at h
    · contradiction
    · rename_i fault hfault
      obtain ⟨rfl, rfl⟩ := Prod.mk.inj (Except.error.inj h)
      obtain ⟨⟨rfl, rfl⟩, rfl⟩ := Operator.apply_eq_error.1 hfault
      exact .inl ⟨rfl, rfl, lhs, rfl⟩

/-- The ways in which a token can fail. -/
inductive Cause where
  /-- A divisor is zero. -/
  | zeroDivisor
  /-- An operator finds less than two operands. -/
  | underflow
  /-- All operators could be applied, but no parenthesis is open. -/
  | unmatched

/-- What is left of `e` if the token `t` fails in one of these ways, after the operators `removed`
were taken off, the latest first. -/
def Cause.Leaves (e : Evaluation) (t : Token) (removed : List Operator) (failure : Failure) :
    Cause → Prop
  | zeroDivisor =>
    failure.fault = .divisionByZero ∧ removed.getLast? = some .div ∧
      removed.length + 1 ≤ e.operands.length ∧
      failure.left.operands = e.operands.drop (removed.length + 1)
  | underflow =>
    failure.fault = .malformedExpression ∧ removed ≠ [] ∧ e.operands.length ≤ removed.length ∧
      failure.left.operands = []
  | unmatched =>
    failure.fault = .malformedExpression ∧ t = .rightParen ∧ .leftParen ∉ e.pending ∧
      failure.left.pending = [] ∧ (removed.length < e.operands.length ∨ removed = []) ∧
      (execute (removed.map .apply) e.operands).result = .ok failure.left.operands

variable {e : Evaluation} {t : Token} {removed : List Operator} {failure : Failure}

/-- The fault tells a division by zero from the rest, and the number of operands tells whether
they ran out. -/
theorem Cause.Leaves.unique {a b : Cause} (ha : a.Leaves e t removed failure)
    (hb : b.Leaves e t removed failure) : a = b := by
  have hfaults : failure.fault = .divisionByZero → failure.fault ≠ .malformedExpression := by
    intro h
    rw [h]
    exact nofun
  have henough : removed ≠ [] → e.operands.length ≤ removed.length →
      ¬(removed.length < e.operands.length ∨ removed = []) := by
    rintro hne hle (hlt | hnil)
    · omega
    · exact hne hnil
  cases a with
  | zeroDivisor =>
    cases b with
    | zeroDivisor => rfl
    | underflow | unmatched => exact absurd hb.1 (hfaults ha.1)
  | underflow =>
    cases b with
    | zeroDivisor => exact absurd ha.1 (hfaults hb.1)
    | underflow => rfl
    | unmatched => exact absurd hb.2.2.2.2.1 (henough ha.2.1 ha.2.2.1)
  | unmatched =>
    cases b with
    | zeroDivisor => exact absurd ha.1 (hfaults hb.1)
    | underflow => exact absurd ha.2.2.2.2.1 (henough hb.2.1 hb.2.2.1)
    | unmatched => rfl

/-- An operator fails, after others that do not. -/
theorem leaves_of_unwind {ready : Operator → Bool}
    (h : unwind ready e.operands e.history e.pending = .error failure) (t : Token) :
    ∃ removed cause, e.pending = removed.map .operator ++ failure.left.pending ∧
      Cause.Leaves e t removed failure cause := by
  obtain ⟨applied, op, middle, steps, hpending, -, hx, hreduce, -⟩ := unwind_error h
  have hleft := left_of_execute hx
  have hlength := length_left_of_execute hx
  refine ⟨applied ++ [op], ?_⟩
  have hremoved : e.pending = (applied ++ [op]).map .operator ++ failure.left.pending := by
    simp [hpending]
  rcases reduce_error hreduce with ⟨hfault, rfl, lhs, rfl⟩ | ⟨hfault, hfew, hnil⟩
  · refine ⟨.zeroDivisor, hremoved, hfault, by simp, ?_, ?_⟩
    · simp only [List.length_cons] at hlength
      rw [List.length_append, List.length_singleton]
      omega
    · -- Below the divisor stands what the operators before did not reach.
      have htail : lhs :: failure.left.operands = e.operands.drop (applied.length + 1) := by
        rcases hleft with ⟨rfl, hstack⟩ | ⟨-, value, hvalue⟩
        · rw [← hstack]
          rfl
        · exact (List.cons.inj hvalue).2
      rw [List.length_append, List.length_singleton, ← List.tail_drop, ← htail]
      rfl
  · refine ⟨.underflow, hremoved, hfault, by simp, ?_, hnil⟩
    rw [List.length_append, List.length_singleton]
    omega

/-- No parenthesis is open, so that all operators are applied. -/
theorem leaves_of_unmatched
    (h : unwind (fun _ => true) e.operands e.history e.pending = .ok failure.left)
    (hfault : failure.fault = .malformedExpression)
    (hkept : kept (fun _ => true) e.pending = []) :
    ∃ removed, e.pending = removed.map .operator ++ failure.left.pending ∧
      Cause.Leaves e .rightParen removed failure .unmatched := by
  obtain ⟨steps, hx, hleft, -⟩ := unwind_ok h
  rw [hkept] at hleft
  have hpending := map_released_append_kept (fun _ => true) e.pending
  rw [hkept] at hpending
  refine ⟨released (fun _ => true) e.pending, by rw [hleft, hpending], hfault, rfl, ?_, hleft,
    ?_, ?_⟩
  · exact List.count_eq_zero.1 (kept_eq_nil.1 hkept)
  · rcases left_of_execute hx with ⟨hnil, -⟩ | ⟨hlength, -⟩
    · exact .inr hnil
    · exact .inl hlength
  · rw [hx]

/-- What a failure leaves. From the waiting entries some operators were taken off the top and
nothing else, and of the ways to fail exactly one tells what is left of the operands. -/
theorem feed_error_leaves (h : e.feed t = .error failure) :
    (t = .rightParen ∨ ∃ op, t = .operator op) ∧
      ∃ removed : List Operator, e.pending = removed.map .operator ++ failure.left.pending ∧
        ∃! cause : Cause, cause.Leaves e t removed failure := by
  rcases feed_error h with ⟨ht, ready, hunwind⟩ | ⟨rfl, hunwind, hfault, hkept⟩
  · obtain ⟨removed, cause, hremoved, hcause⟩ := leaves_of_unwind hunwind t
    exact ⟨ht, removed, hremoved, cause, hcause, fun _ hother => hother.unique hcause⟩
  · obtain ⟨removed, hremoved, hcause⟩ := leaves_of_unmatched hunwind hfault hkept
    exact ⟨.inl rfl, removed, hremoved, .unmatched, hcause, fun _ hother => hother.unique hcause⟩

/-- A division by the product that waits above it, as no tokens make it wait, a sum that lacks an
operand, and a parenthesis too many after a product. -/
theorem feed_error_leaves_operands :
    (let e : Evaluation :=
        ⟨[0, 5, 6, 9], [.operator .mul, .operator .div, .leftParen, .operator .add], []⟩
      let failure : Failure :=
        ⟨.divisionByZero, [9], [.leftParen, .operator .add], [⟨5, .mul, 0, 0⟩]⟩
      e.feed (.operator .sub) = .error failure ∧
        ∃ removed : List Operator, e.pending = removed.map .operator ++ failure.left.pending ∧
          ∃! cause : Cause, cause.Leaves e (.operator .sub) removed failure) ∧
    (let e : Evaluation := ⟨[4], [.operator .add, .operator .sub], []⟩
      let failure : Failure := ⟨.malformedExpression, [], [.operator .sub], []⟩
      e.feed .rightParen = .error failure ∧
        ∃ removed : List Operator, e.pending = removed.map .operator ++ failure.left.pending ∧
          ∃! cause : Cause, cause.Leaves e .rightParen removed failure) ∧
    let e : Evaluation := ⟨[3, 2, 7], [.operator .mul], []⟩
    let failure : Failure := ⟨.malformedExpression, [6, 7], [], [⟨2, .mul, 3, 6⟩]⟩
    e.feed .rightParen = .error failure ∧
      ∃ removed : List Operator, e.pending = removed.map .operator ++ failure.left.pending ∧
        ∃! cause : Cause, cause.Leaves e .rightParen removed failure :=
  ⟨⟨rfl, (feed_error_leaves rfl).2⟩, ⟨rfl, (feed_error_leaves rfl).2⟩,
    ⟨rfl, (feed_error_leaves rfl).2⟩⟩

end Evaluation

end IntegerCalc
