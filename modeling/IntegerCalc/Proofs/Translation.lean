import IntegerCalc.Proofs.Execution
import IntegerCalc.Proofs.Unwinding

/-! Evaluation as a translation that is carried out while it is made. The waiting
entries alone decide which instructions a token brings about and what waits after
it; the operands alone decide whether the instructions succeed. Operands that a
failure leaves behind are not described here, only its fault and the reductions
made before it. -/

namespace IntegerCalc

def Failure.summary (failure : Failure) : Fault × List Reduction :=
  (failure.fault, failure.left.history)

namespace ReversePolish

/-- The state of an evaluation after instructions that were given on top of `history`,
or what a failure tells. Without `pending` there is no state to go on from. -/
def Execution.resume (history : List Reduction) (x : Execution) :
    Option (List Pending) → Except (Fault × List Reduction) Evaluation
  | some pending =>
    match x.result with
    | .ok stack => .ok ⟨stack, pending, x.reductions.reverse ++ history⟩
    | .error fault => .error (fault, x.reductions.reverse ++ history)
  | none =>
    match x.result with
    | .ok _ => .error (.malformedExpression, x.reductions.reverse ++ history)
    | .error fault => .error (fault, x.reductions.reverse ++ history)

section Resume

variable {x : Execution} {stack : List Int} {fault : Fault}

theorem Execution.resume_ok (h : x.result = .ok stack) (history : List Reduction)
    (pending : List Pending) :
    x.resume history (some pending) = .ok ⟨stack, pending, x.reductions.reverse ++ history⟩ := by
  simp only [resume, h]

theorem Execution.resume_none (h : x.result = .ok stack) (history : List Reduction) :
    x.resume history none = .error (.malformedExpression, x.reductions.reverse ++ history) := by
  simp only [resume, h]

theorem Execution.resume_error (h : x.result = .error fault) (history : List Reduction)
    (next : Option (List Pending)) :
    x.resume history next = .error (fault, x.reductions.reverse ++ history) := by
  cases next <;> simp only [resume, h]

end Resume

end ReversePolish

/-! ### The translation of tokens -/

namespace ReversePolish

open Pending

/-- The instructions that a token brings about. -/
def emit (pending : List Pending) : Token → List Instruction
  | .number value => [.push value]
  | .leftParen => []
  | .rightParen => (released (fun _ => true) pending).map .apply
  | .operator op => (released (op.precedence ≤ ·.precedence) pending).map .apply

/-- What waits after a token, unless it closes a parenthesis that was not open. -/
def advance (pending : List Pending) : Token → Option (List Pending)
  | .number _ => some pending
  | .leftParen => some (.leftParen :: pending)
  | .rightParen =>
    match kept (fun _ => true) pending with
    | .leftParen :: rest => some rest
    | _ => none
  | .operator op => some (.operator op :: kept (op.precedence ≤ ·.precedence) pending)

def advanceAll (pending : List Pending) (ts : List Token) : Option (List Pending) :=
  ts.foldlM advance pending

def emitAll : List Pending → List Token → List Instruction
  | _, [] => []
  | pending, t :: ts =>
    emit pending t ++
      match advance pending t with
      | some pending => emitAll pending ts
      | none => []

@[simp] theorem advanceAll_nil (pending : List Pending) :
    advanceAll pending [] = some pending := rfl

theorem advanceAll_cons (pending : List Pending) (t : Token) (ts : List Token) :
    advanceAll pending (t :: ts) = (advance pending t).bind (advanceAll · ts) := rfl

theorem advanceAll_cons_eq_some {pending last : List Pending} {t : Token} {ts : List Token} :
    advanceAll pending (t :: ts) = some last ↔
      ∃ next, advance pending t = some next ∧ advanceAll next ts = some last :=
  Option.bind_eq_some_iff

theorem advanceAll_append (pending : List Pending) (a b : List Token) :
    advanceAll pending (a ++ b) = (advanceAll pending a).bind (advanceAll · b) :=
  List.foldlM_append

@[simp] theorem emitAll_nil (pending : List Pending) : emitAll pending [] = [] := rfl

theorem emitAll_cons {pending next : List Pending} {t : Token} (h : advance pending t = some next)
    (ts : List Token) : emitAll pending (t :: ts) = emit pending t ++ emitAll next ts := by
  simp [emitAll, h]

theorem emitAll_of_advance_eq_none {pending : List Pending} {t : Token}
    (h : advance pending t = none) (ts : List Token) :
    emitAll pending (t :: ts) = emit pending t := by
  simp [emitAll, h]

theorem emitAll_append {pending next : List Pending} {a : List Token}
    (h : advanceAll pending a = some next) (b : List Token) :
    emitAll pending (a ++ b) = emitAll pending a ++ emitAll next b := by
  induction a generalizing pending with
  | nil =>
    rw [advanceAll_nil, Option.some_inj] at h
    rw [h]; rfl
  | cons t a ih =>
    obtain ⟨middle, ht, ha⟩ := advanceAll_cons_eq_some.1 h
    rw [List.cons_append, emitAll_cons ht, emitAll_cons ht, ih ha, List.append_assoc]

/-- The instructions at the end of the tokens. -/
def emitRest (pending : List Pending) : List Instruction :=
  (released (fun _ => true) pending).map .apply

theorem openAfter_cons (pending : List Pending) (t : Token) (ts : List Token) :
    openAfter (pending.count .leftParen) (t :: ts) =
      (advance pending t).bind fun pending => openAfter (pending.count .leftParen) ts := by
  cases t with
  | number value => rfl
  | leftParen => simp [openAfter, advance]
  | operator op => simp [openAfter, advance, count_kept]
  | rightParen =>
    rw [← count_kept fun _ => true]
    rcases hp : kept (fun _ => true) pending with _ | ⟨_ | _, rest⟩
    · simp [openAfter, advance, hp]
    · exact absurd hp (kept_ne_operator _ _)
    · simp [openAfter, advance, hp]

theorem openAfter_eq (pending : List Pending) (ts : List Token) :
    openAfter (pending.count .leftParen) ts =
      (advanceAll pending ts).map (·.count .leftParen) := by
  induction ts generalizing pending with
  | nil => rfl
  | cons t ts ih =>
    rw [openAfter_cons, advanceAll_cons]
    cases advance pending t with
    | none => rfl
    | some pending => exact ih pending

theorem balanced_iff {ts : List Token} :
    Balanced ts ↔ ∃ pending, advanceAll [] ts = some pending ∧
      kept (fun _ => true) pending = [] := by
  have h := openAfter_eq [] ts
  rw [List.count_nil] at h
  simp [Balanced, h, kept_eq_nil]

end ReversePolish

namespace Pending

/-- Whatever the next token is, what waits after it still ascends. -/
theorem Ascending.advance {pending next : List Pending} {t : Token} (h : Ascending pending)
    (ht : ReversePolish.advance pending t = some next) : Ascending next := by
  cases t with
  | number value => exact Option.some_inj.1 ht ▸ h
  | leftParen => exact Option.some_inj.1 ht ▸ h.leftParen
  | operator op =>
    exact Option.some_inj.1 ht ▸ (h.suffix (kept_suffix _ _)).operator (stops_kept _ _)
  | rightParen =>
    have hk := kept_suffix (fun _ => true) pending
    simp only [ReversePolish.advance] at ht
    split at ht
    · rename_i rest hrest
      rw [hrest] at hk
      exact Option.some_inj.1 ht ▸ h.suffix ((List.suffix_cons _ _).trans hk)
    · contradiction

end Pending

namespace Evaluation

open ReversePolish Pending

theorem unwind_eq (ready : Operator → Bool) (operands : List Int) (history : List Reduction)
    (pending : List Pending) :
    (unwind ready operands history pending).mapError Failure.summary =
      (execute ((released ready pending).map .apply) operands).resume history
        (some (kept ready pending)) := by
  induction pending generalizing operands history with
  | nil => rfl
  | cons entry pending ih =>
    cases entry with
    | leftParen => rfl
    | operator op =>
      rw [released_operator, kept_operator, unwind]
      by_cases hr : ready op = true
      · simp only [hr, if_true, List.map_cons]
        match operands with
        | [] | [_] => rfl
        | rhs :: lhs :: operands =>
          cases h : op.apply lhs rhs with
          | error fault =>
            rw [execute_apply_error h]
            simp only [reduce, h]
            rfl
          | ok value =>
            rw [execute_apply_ok h]
            simp only [reduce, h, ih]
            simp [Execution.resume]
      · simp [hr, Except.mapError, Execution.resume]

private theorem bind_eq_ok {α β ε : Type} {x : Except ε α} {next : α → Except ε β} {b : β} :
    x >>= next = .ok b ↔ ∃ a, x = .ok a ∧ next a = .ok b := by
  cases x with
  | error e => exact ⟨nofun, nofun⟩
  | ok a => simp [bind, Except.bind]

private theorem mapError_bind {α β ε ε' : Type} (x : Except ε α) (next : α → Except ε β)
    (f : ε → ε') : (x >>= next).mapError f = x.mapError f >>= fun a => (next a).mapError f := by
  cases x <;> rfl

theorem feed_eq (e : Evaluation) (t : Token) :
    (e.feed t).mapError Failure.summary =
      (execute (emit e.pending t) e.operands).resume e.history (advance e.pending t) := by
  cases t with
  | number value => rfl
  | leftParen => rfl
  | operator op =>
    simp only [feed, pushOperator, mapError_bind, unwind_eq]
    simp only [Execution.resume, emit, advance]
    split <;> rfl
  | rightParen =>
    simp only [feed, closeGroup, mapError_bind, unwind_eq]
    simp only [Execution.resume, emit, advance]
    rcases kept (fun _ => true) e.pending with _ | ⟨_ | _, _⟩ <;> split <;> rfl

private theorem resume_bind (x : Execution) (history : List Reduction) (pending : List Pending)
    (code : List Pending → List Instruction) (next : List Pending → Option (List Pending)) :
    (x.resume history (some pending) >>= fun e =>
        (execute (code e.pending) e.operands).resume e.history (next e.pending)) =
      (x.andThen (execute (code pending))).resume history (next pending) := by
  unfold Execution.andThen
  cases hx : x.result with
  | error fault => rw [Execution.resume_error hx, Execution.resume_error rfl]; rfl
  | ok stack =>
    rw [Execution.resume_ok hx]
    simp only [Execution.resume, List.reverse_append, List.append_assoc]
    rfl

theorem feedAll_eq (e : Evaluation) (ts : List Token) :
    (e.feedAll ts).mapError Failure.summary =
      (execute (emitAll e.pending ts) e.operands).resume e.history (advanceAll e.pending ts) := by
  induction ts generalizing e with
  | nil => rfl
  | cons t ts ih =>
    have hstep : (e.feedAll (t :: ts)).mapError Failure.summary =
        (execute (emit e.pending t) e.operands).resume e.history (advance e.pending t) >>=
          fun e => (e.feedAll ts).mapError Failure.summary := by
      rw [← feed_eq, ← mapError_bind]; rfl
    rw [hstep, advanceAll_cons]
    simp only [ih]
    cases ht : advance e.pending t with
    | some pending =>
      rw [emitAll_cons ht, execute_append]
      exact resume_bind _ _ _ (emitAll · ts) (advanceAll · ts)
    | none =>
      rw [emitAll_of_advance_eq_none ht, Option.bind_none]
      cases hx : (execute (emit e.pending t) e.operands).result with
      | error fault => rw [Execution.resume_error hx]; rfl
      | ok stack => rw [Execution.resume_none hx]; rfl

theorem feedAll_eq_ok {e next : Evaluation} {ts : List Token} :
    e.feedAll ts = .ok next ↔
      ∃ reductions, advanceAll e.pending ts = some next.pending ∧
        execute (emitAll e.pending ts) e.operands = ⟨.ok next.operands, reductions⟩ ∧
        next.history = reductions.reverse ++ e.history := by
  have h : e.feedAll ts = .ok next ↔ (e.feedAll ts).mapError Failure.summary = .ok next := by
    cases e.feedAll ts <;> simp [Except.mapError]
  rw [h, feedAll_eq]
  cases advanceAll e.pending ts with
  | none =>
    rcases execute (emitAll e.pending ts) e.operands with ⟨_ | _, reductions⟩ <;>
      simp [Execution.resume]
  | some pending =>
    rcases execute (emitAll e.pending ts) e.operands with ⟨_ | stack, reductions⟩
    · simp [Execution.resume]
    · obtain ⟨operands, waiting, history⟩ := next
      simp only [Execution.resume, Except.ok.injEq, Evaluation.mk.injEq, Execution.mk.injEq,
        Option.some_inj]
      constructor
      · rintro ⟨rfl, rfl, rfl⟩
        exact ⟨reductions, rfl, ⟨rfl, rfl⟩, rfl⟩
      · rintro ⟨_, rfl, ⟨rfl, rfl⟩, rfl⟩
        exact ⟨rfl, rfl, rfl⟩

private theorem finish_eq_summary (e : Evaluation) :
    e.finish =
      match (unwind (fun _ => true) e.operands e.history e.pending).mapError Failure.summary with
      | .error (fault, history) => ⟨.error fault, history.reverse, true⟩
      | .ok e =>
        match e.operands, e.pending with
        | [value], [] => ⟨.ok value, e.history.reverse, true⟩
        | _, _ => ⟨.error .malformedExpression, e.history.reverse, true⟩ := by
  unfold finish
  cases unwind (fun _ => true) e.operands e.history e.pending <;> rfl

theorem finish_eq (e : Evaluation) :
    e.finish =
      let x := execute (emitRest e.pending) e.operands
      ⟨x.value >>= fun value =>
          if kept (fun _ => true) e.pending = [] then .ok value else .error .malformedExpression,
        e.history.reverse ++ x.reductions, true⟩ := by
  rw [finish_eq_summary, unwind_eq, ← emitRest]
  unfold Execution.value
  cases hx : (execute (emitRest e.pending) e.operands).result with
  | error fault =>
    simp only [Execution.resume_error hx, hx, List.reverse_append, List.reverse_reverse]
    rfl
  | ok stack =>
    simp only [Execution.resume_ok hx, hx, List.reverse_append, List.reverse_reverse]
    rcases stack with _ | ⟨_, _ | _⟩ <;> cases kept (fun _ => true) e.pending <;> rfl

theorem finish_result_eq_ok {e : Evaluation} {value : Int} (h : e.finish.result = .ok value) :
    kept (fun _ => true) e.pending = [] ∧
      ∃ reductions, execute (emitRest e.pending) e.operands = ⟨.ok [value], reductions⟩ ∧
        e.finish.reductions = e.history.reverse ++ reductions := by
  rw [finish_eq] at h ⊢
  obtain ⟨last, hv, hlast⟩ := bind_eq_ok.1 h
  split at hlast
  · rename_i hk
    rw [Except.ok.inj hlast, Execution.value_eq_ok] at hv
    exact ⟨hk, _, by rw [← hv], rfl⟩
  · contradiction

end Evaluation

/-! ### Whole lists of tokens -/

open ReversePolish Pending

variable {ts : List Token} {pending : List Pending} {value : Int}

private theorem report_eq_resume (ts : List Token) :
    report ts =
      match (execute (emitAll [] ts) []).resume [] (advanceAll [] ts) with
      | .ok e => e.finish
      | .error (fault, history) => ⟨.error fault, history.reverse, false⟩ := by
  rw [← Evaluation.feedAll_eq {} ts, report]
  cases Evaluation.feedAll {} ts <;> rfl

theorem report_eq_of_advanceAll (h : advanceAll [] ts = some pending) :
    report ts =
      let x := execute (emitAll [] ts ++ emitRest pending) []
      ⟨x.value >>= fun value =>
          if kept (fun _ => true) pending = [] then .ok value else .error .malformedExpression,
        x.reductions, (execute (emitAll [] ts) []).result.isOk⟩ := by
  rw [report_eq_resume, h, execute_append]
  unfold Execution.andThen
  cases hx : (execute (emitAll [] ts) []).result with
  | error fault =>
    simp only [Execution.resume_error hx, List.append_nil, List.reverse_reverse]
    rfl
  | ok stack =>
    simp only [Execution.resume_ok hx, Evaluation.finish_eq, List.append_nil, List.reverse_reverse]
    rfl

/-- A parenthesis is closed that was not open. -/
theorem report_eq_of_advanceAll_none (h : advanceAll [] ts = none) :
    report ts =
      let x := execute (emitAll [] ts) []
      ⟨x.value >>= fun _ => .error .malformedExpression, x.reductions, false⟩ := by
  rw [report_eq_resume, h]
  unfold Execution.value
  cases hx : (execute (emitAll [] ts) []).result with
  | error fault =>
    simp only [Execution.resume_error hx, hx, List.append_nil, List.reverse_reverse]
    rfl
  | ok stack =>
    simp only [Execution.resume_none hx, hx, List.append_nil, List.reverse_reverse]
    rcases stack with _ | ⟨_, _ | _⟩ <;> rfl

theorem evaluate_eq_run (h : advanceAll [] ts = some pending)
    (hc : kept (fun _ => true) pending = []) :
    evaluate ts = run (emitAll [] ts ++ emitRest pending) := by
  rw [evaluate, report_eq_of_advanceAll h, run_eq_value]
  simp only [hc, if_true]
  cases (execute (emitAll [] ts ++ emitRest pending) []).value <;> rfl

theorem evaluate_eq_ok :
    evaluate ts = .ok value ↔ ∃ pending, advanceAll [] ts = some pending ∧
      kept (fun _ => true) pending = [] ∧ run (emitAll [] ts ++ emitRest pending) = .ok value := by
  constructor
  · intro h
    cases ha : advanceAll [] ts with
    | none =>
      rw [evaluate, report_eq_of_advanceAll_none ha] at h
      obtain ⟨_, _, hvalue⟩ := Evaluation.bind_eq_ok.1 h
      contradiction
    | some pending =>
      by_cases hc : kept (fun _ => true) pending = []
      · exact ⟨pending, rfl, hc, (evaluate_eq_run ha hc).symm.trans h⟩
      · rw [evaluate, report_eq_of_advanceAll ha] at h
        obtain ⟨_, _, hvalue⟩ := Evaluation.bind_eq_ok.1 h
        rw [if_neg hc] at hvalue
        contradiction
  · rintro ⟨pending, ha, hc, h⟩
    rw [evaluate_eq_run ha hc, h]

end IntegerCalc
