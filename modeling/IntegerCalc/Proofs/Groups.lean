import IntegerCalc.Proofs.Translation

/-! Groups. Tokens do above an open parenthesis what they do by themselves, also on top of
other operands, and the parenthesis that closes them applies what the end of the tokens
would. Main statement: in every context, well-formed or not, a group may be exchanged for
the number that its tokens evaluate to, and a division by zero in it is one of the whole. -/

namespace IntegerCalc

/-! ### Above an open parenthesis -/

namespace Pending

theorem released_above (ready : Operator → Bool) (pending below : List Pending) :
    released ready (pending ++ .leftParen :: below) = released ready pending := by
  induction pending with
  | nil => rfl
  | cons entry pending ih =>
    cases entry with
    | leftParen => rfl
    | operator op => rw [List.cons_append, released_operator, released_operator, ih]

theorem kept_above (ready : Operator → Bool) (pending below : List Pending) :
    kept ready (pending ++ .leftParen :: below) = kept ready pending ++ .leftParen :: below := by
  induction pending with
  | nil => rfl
  | cons entry pending ih =>
    cases entry with
    | leftParen => rfl
    | operator op =>
      rw [List.cons_append, kept_operator, kept_operator, ih]
      split <;> rfl

end Pending

namespace ReversePolish

open Pending

variable {pending next : List Pending} {ts : List Token}

theorem emit_above (pending below : List Pending) (t : Token) :
    emit (pending ++ .leftParen :: below) t = emit pending t := by
  cases t <;> simp only [emit, released_above]

theorem advance_above {t : Token} (h : advance pending t = some next) (below : List Pending) :
    advance (pending ++ .leftParen :: below) t = some (next ++ .leftParen :: below) := by
  cases t with
  | number value | leftParen =>
    obtain rfl := Option.some_inj.1 h
    rfl
  | operator op =>
    obtain rfl := Option.some_inj.1 h
    simp only [advance, kept_above, List.cons_append]
  | rightParen =>
    simp only [advance] at h
    split at h
    · rename_i rest hrest
      obtain rfl := Option.some_inj.1 h
      simp only [advance, kept_above, hrest, List.cons_append]
    · contradiction

theorem advanceAll_above (h : advanceAll pending ts = some next) (below : List Pending) :
    advanceAll (pending ++ .leftParen :: below) ts = some (next ++ .leftParen :: below) := by
  induction ts generalizing pending with
  | nil => rw [advanceAll_nil, Option.some_inj] at h; rw [h]; rfl
  | cons t ts ih =>
    obtain ⟨middle, ht, hts⟩ := advanceAll_cons_eq_some.1 h
    rw [advanceAll_cons, advance_above ht, Option.bind_some, ih hts]

theorem emitAll_above (h : advanceAll pending ts = some next) (below : List Pending) :
    emitAll (pending ++ .leftParen :: below) ts = emitAll pending ts := by
  induction ts generalizing pending with
  | nil => rfl
  | cons t ts ih =>
    obtain ⟨middle, ht, hts⟩ := advanceAll_cons_eq_some.1 h
    rw [emitAll_cons ht, emitAll_cons (advance_above ht below), emit_above, ih hts]

/-- Where the tokens by themselves close a parenthesis that was not open, there may be one
further down, and their instructions go on. -/
theorem emitAll_prefix_above (pending below : List Pending) (ts : List Token) :
    emitAll pending ts <+: emitAll (pending ++ .leftParen :: below) ts := by
  induction ts generalizing pending with
  | nil => exact List.nil_prefix
  | cons t ts ih =>
    cases ht : advance pending t with
    | some next =>
      rw [emitAll_cons ht, emitAll_cons (advance_above ht below), emit_above]
      exact (List.prefix_append_right_inj _).2 (ih next)
    | none =>
      rw [emitAll_of_advance_eq_none ht, emitAll, emit_above]
      exact List.prefix_append _ _

theorem emitAll_append_of_advanceAll_eq_none {a : List Token} (h : advanceAll pending a = none)
    (b : List Token) : emitAll pending (a ++ b) = emitAll pending a := by
  induction a generalizing pending with
  | nil => contradiction
  | cons t a ih =>
    rw [advanceAll_cons] at h
    cases ht : advance pending t with
    | none => rw [List.cons_append, emitAll_of_advance_eq_none ht, emitAll_of_advance_eq_none ht]
    | some next =>
      rw [ht, Option.bind_some] at h
      rw [List.cons_append, emitAll_cons ht, emitAll_cons ht, ih h]

theorem emitAll_prefix_append (pending : List Pending) (a b : List Token) :
    emitAll pending a <+: emitAll pending (a ++ b) := by
  cases h : advanceAll pending a with
  | none => exact ⟨[], by rw [emitAll_append_of_advanceAll_eq_none h, List.append_nil]⟩
  | some next =>
    rw [emitAll_append h]
    exact List.prefix_append _ _

/-! ### Tokens that stand by themselves -/

/-- The instructions of tokens and of their end, which acts like a closing parenthesis. -/
def whole (ts : List Token) : List Instruction := emitAll [] (ts ++ [.rightParen])

theorem whole_eq (h : advanceAll [] ts = some pending) :
    whole ts = emitAll [] ts ++ emitRest pending := by
  have hend : emitAll pending [.rightParen] = emitRest pending := by
    unfold emitAll
    split <;> exact List.append_nil _
  rw [whole, emitAll_append h, hend]

/-- Tokens without balance are malformed, unless their instructions fail before that shows. -/
theorem evaluate_eq_whole (ts : List Token) :
    evaluate ts = run (whole ts) >>= fun value =>
      if Balanced ts then .ok value else .error .malformedExpression := by
  cases ha : advanceAll [] ts with
  | some pending =>
    have hb : Balanced ts ↔ kept (fun _ => true) pending = [] := by simp [balanced_iff, ha]
    rw [evaluate, report_eq_of_advanceAll ha, whole_eq ha, run_eq_value]
    simp only [hb]
  | none =>
    have hb : ¬Balanced ts := by simp [balanced_iff, ha]
    rw [evaluate, report_eq_of_advanceAll_none ha, whole, emitAll_append_of_advanceAll_eq_none ha,
      run_eq_value]
    simp only [hb, if_false]

theorem whole_prefix_group (below : List Pending) (ts : List Token) :
    whole ts <+: emitAll below (.leftParen :: ts ++ [.rightParen]) := by
  have hopen : advance below .leftParen = some ([] ++ .leftParen :: below) := rfl
  rw [List.cons_append, emitAll_cons hopen]
  exact emitAll_prefix_above [] below _

/-- What waited below a group waits after it, untouched. -/
theorem translate_group (h : Balanced ts) (below : List Pending) :
    advanceAll below (.leftParen :: ts ++ [.rightParen]) = some below ∧
      emitAll below (.leftParen :: ts ++ [.rightParen]) = whole ts := by
  obtain ⟨pending, ha, hc⟩ := balanced_iff.1 h
  have hopen : advance below .leftParen = some ([] ++ .leftParen :: below) := rfl
  have hclose : advance (pending ++ .leftParen :: below) .rightParen = some below := by
    simp only [advance, kept_above, hc, List.nil_append]
  constructor
  · rw [List.cons_append, advanceAll_cons, hopen, Option.bind_some, advanceAll_append,
      advanceAll_above ha, Option.bind_some, advanceAll_cons, hclose]
    rfl
  · rw [List.cons_append, emitAll_cons hopen, emitAll_append (advanceAll_above ha below),
      emitAll_above ha, emitAll_cons hclose, emit_above, whole_eq ha]
    simp [emit, emitRest]

/-! ### On top of other operands -/

/-- Instructions that find all their operands take none from further down. -/
theorem step_above {stack : List Int} {instruction : Instruction}
    (h : step stack instruction ≠ .error .malformedExpression) (below : List Int) :
    step (stack ++ below) instruction = (step stack instruction).map (· ++ below) := by
  cases instruction with
  | push value => rfl
  | apply op =>
    match stack with
    | [] | [_] => exact absurd rfl h
    | rhs :: lhs :: stack =>
      simp only [List.cons_append, step]
      cases op.apply lhs rhs <;> rfl

theorem foldlM_step_above {code : List Instruction} {stack : List Int}
    (h : code.foldlM step stack ≠ .error .malformedExpression) (below : List Int) :
    code.foldlM step (stack ++ below) = (code.foldlM step stack).map (· ++ below) := by
  induction code generalizing stack with
  | nil => rfl
  | cons instruction code ih =>
    rw [List.foldlM_cons] at h ⊢
    rw [List.foldlM_cons]
    have hfirst : step stack instruction ≠ .error .malformedExpression := by
      intro he
      rw [he] at h
      exact h rfl
    rw [step_above hfirst]
    cases hs : step stack instruction with
    | error fault => rfl
    | ok next =>
      rw [hs] at h
      exact ih h

variable {code : List Instruction} {value : Int}

theorem run_eq_ok : run code = .ok value ↔ code.foldlM step [] = .ok [value] := by
  rw [run_eq_value, Execution.value_eq_ok, execute_result]

theorem run_eq_divisionByZero :
    run code = .error .divisionByZero ↔ code.foldlM step [] = .error .divisionByZero := by
  unfold run
  match code.foldlM step [] with
  | .error _ | .ok [_] => simp [bind, Except.bind, pure, Except.pure]
  | .ok [] | .ok (_ :: _ :: _) => simp [bind, Except.bind, throw, throwThe, MonadExceptOf.throw]

theorem foldlM_step_error {a : List Instruction} {stack : List Int} {fault : Fault}
    (h : a <+: code) (ha : a.foldlM step stack = .error fault) :
    code.foldlM step stack = .error fault := by
  obtain ⟨b, rfl⟩ := h
  rw [List.foldlM_append, ha]
  rfl

/-! ### Contexts -/

/-- Tokens may be exchanged if both leave what waits as it is and do the same to all stacks. -/
theorem evaluate_exchange {a b : List Token}
    (ha : ∀ pending, advanceAll pending a = some pending)
    (hb : ∀ pending, advanceAll pending b = some pending)
    (h : ∀ pending stack,
      (emitAll pending a).foldlM step stack = (emitAll pending b).foldlM step stack)
    (before after : List Token) :
    evaluate (before ++ a ++ after) = evaluate (before ++ b ++ after) := by
  have hbalanced : Balanced (before ++ a ++ after) ↔ Balanced (before ++ b ++ after) := by
    simp only [balanced_iff, advanceAll_append, ha, hb]
  have hrun : run (whole (before ++ a ++ after)) = run (whole (before ++ b ++ after)) := by
    simp only [whole, List.append_assoc]
    cases hp : advanceAll [] before with
    | none =>
      rw [emitAll_append_of_advanceAll_eq_none hp, emitAll_append_of_advanceAll_eq_none hp]
    | some pending =>
      rw [emitAll_append hp, emitAll_append hp, emitAll_append (ha pending),
        emitAll_append (hb pending)]
      simp only [run, List.foldlM_append, h]
  rw [evaluate_eq_whole, evaluate_eq_whole, hrun]
  simp only [hbalanced]

theorem whole_of_evaluate (h : evaluate ts = .ok value) :
    Balanced ts ∧ (whole ts).foldlM step [] = .ok [value] := by
  obtain ⟨pending, ha, hc, hr⟩ := evaluate_eq_ok.1 h
  rw [← whole_eq ha, run_eq_ok] at hr
  exact ⟨balanced_iff.2 ⟨pending, ha, hc⟩, hr⟩

theorem evaluate_eq_divisionByZero :
    evaluate ts = .error .divisionByZero ↔
      (whole ts).foldlM step [] = .error .divisionByZero := by
  rw [← run_eq_divisionByZero, evaluate_eq_whole]
  cases run (whole ts) with
  | error fault => rfl
  | ok value =>
    by_cases hb : Balanced ts <;> simp [bind, Except.bind, hb]

end ReversePolish

open ReversePolish

/-- A group may be exchanged for its value, whatever stands around it, and a division by
zero in it is reported if the tokens before it are accepted. -/
theorem evaluate_group (before ts after : List Token) :
    (∀ value, evaluate ts = .ok value →
      evaluate (before ++ [.leftParen] ++ ts ++ [.rightParen] ++ after) =
        evaluate (before ++ [.number value] ++ after)) ∧
    (evaluate ts = .error .divisionByZero → (∃ e, Evaluation.feedAll {} before = .ok e) →
      evaluate (before ++ [.leftParen] ++ ts ++ [.rightParen] ++ after) =
        .error .divisionByZero) := by
  have hassoc : before ++ [.leftParen] ++ ts ++ [.rightParen] ++ after =
      before ++ (.leftParen :: ts ++ [.rightParen]) ++ after := by simp
  rw [hassoc]
  constructor
  · intro value h
    obtain ⟨hb, hv⟩ := whole_of_evaluate h
    refine evaluate_exchange (fun below => (translate_group hb below).1) (fun _ => rfl)
      (fun below stack => ?_) before after
    have hframe := foldlM_step_above (hv.trans_ne nofun) stack
    rw [hv, List.nil_append] at hframe
    rw [(translate_group hb below).2, hframe]
    rfl
  · rintro h ⟨e, he⟩
    rw [evaluate_eq_divisionByZero] at h ⊢
    obtain ⟨reductions, ha, hx, -⟩ := Evaluation.feedAll_eq_ok.1 he
    have hstack : (emitAll [] before).foldlM step [] = .ok e.operands := by
      rw [← execute_result]
      exact congrArg Execution.result hx
    have hframe := foldlM_step_above (h.trans_ne nofun) e.operands
    rw [h, List.nil_append] at hframe
    -- The instructions of the group come first after those of `before`, whatever follows them.
    have hgroup := foldlM_step_error (whole_prefix_group e.pending ts) hframe
    rw [whole, List.append_assoc, List.append_assoc, emitAll_append ha, List.foldlM_append, hstack]
    exact foldlM_step_error (emitAll_prefix_append _ _ _) hgroup

/-- `7 - (1 2 -) * 3`, where the group is no infix expression, and `7 - (4 / (1 - 1)) 2) * 3`,
where a parenthesis too many is closed after the division. -/
theorem evaluate_group_postfix :
    let before : List Token := [.number 7, .operator .sub]
    let postfixed : List Token := [.number 1, .number 2, .operator .sub]
    let unbalanced : List Token := [.number 4, .operator .div, .leftParen, .number 1,
      .operator .sub, .number 1, .rightParen, .rightParen, .number 2]
    let after : List Token := [.operator .mul, .number 3]
    evaluate postfixed = .ok (-1) ∧
      evaluate (before ++ [.leftParen] ++ postfixed ++ [.rightParen] ++ after) =
        evaluate (before ++ [.number (-1)] ++ after) ∧
      evaluate unbalanced = .error .divisionByZero ∧
      (∃ e, Evaluation.feedAll {} before = .ok e) ∧
      evaluate (before ++ [.leftParen] ++ unbalanced ++ [.rightParen] ++ after) =
        .error .divisionByZero :=
  ⟨rfl, (evaluate_group _ _ _).1 (-1) rfl, rfl, ⟨_, rfl⟩, (evaluate_group _ _ _).2 rfl ⟨_, rfl⟩⟩

end IntegerCalc
