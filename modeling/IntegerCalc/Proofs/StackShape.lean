import IntegerCalc.Proofs.Conservation
import IntegerCalc.Session

/-! The shape of the waiting entries in a session. Whatever is fed, in any order and with
failures in between, each operator binds tighter than the operator right below it, as a
failure only takes entries off the top. With two precedences this bounds the operators that
wait between parentheses, and with them the reductions that one operator can bring about. -/

namespace IntegerCalc

/-! ### The entries of a stack that ascends -/

namespace Pending

variable {pending : List Pending} {ready : Operator → Bool}

theorem Ascending.part {part : List Pending} (h : Ascending pending) (hp : part <:+: pending) :
    Ascending part := List.IsChain.infix h hp

theorem Ascending.length_stretch {ops : List Operator} (h : Ascending pending)
    (ho : ops.map .operator <:+: pending) : ops.length ≤ 2 := by
  have hc := h.part ho
  match ops with
  | [] | [_] | [_, _] => simp
  | a :: b :: c :: _ =>
    obtain ⟨hab, hbc⟩ :
        Tighter (.operator a) (.operator b) ∧ Tighter (.operator b) (.operator c) := by
      simp only [Ascending, List.map_cons, List.isChain_cons_cons] at hc
      exact ⟨hc.1, hc.2.1⟩
    have ha := a.precedence_eq
    have hc := c.precedence_eq
    simp only [Tighter] at hab hbc
    omega

theorem Ascending.eq_leftParen {entry : Pending} {op : Operator} (h : Ascending pending)
    (hi : [entry, .operator op] <:+: pending) (hop : op.precedence = 2) : entry = .leftParen := by
  have ht : Tighter entry (.operator op) := List.isChain_pair.1 (h.part hi)
  cases entry with
  | leftParen => rfl
  | operator upper =>
    have hu := upper.precedence_eq
    simp only [Tighter] at ht
    omega

/-- The precedence of the latest entry, or nothing for a parenthesis. -/
def topPrecedence : List Pending → Nat
  | .operator op :: _ => op.precedence
  | _ => 0

theorem topPrecedence_le (pending : List Pending) : topPrecedence pending ≤ 2 := by
  match pending with
  | [] | .leftParen :: _ => simp [topPrecedence]
  | .operator op :: _ =>
    have h := op.precedence_eq
    simp only [topPrecedence]
    omega

theorem Ascending.topPrecedence_lt {op : Operator} (h : Ascending (.operator op :: pending)) :
    topPrecedence pending < op.precedence := by
  match pending with
  | [] | .leftParen :: _ =>
    have hop := op.precedence_eq
    simp only [topPrecedence]
    omega
  | .operator lower :: _ => exact (List.isChain_cons_cons.1 h).1

/-- The latest stretch holds no more operators than its top has precedence. -/
theorem Ascending.length_le_topPrecedence (h : Ascending pending) :
    pending.length ≤ 3 * pending.count .leftParen + topPrecedence pending := by
  induction pending with
  | nil => simp
  | cons entry pending ih =>
    have hrest := ih (h.suffix (List.suffix_cons _ _))
    cases entry with
    | leftParen =>
      have htop := topPrecedence_le pending
      simp only [List.length_cons, List.count_cons_self, topPrecedence]
      omega
    | operator op =>
      have htop := h.topPrecedence_lt
      have hcount : (Pending.operator op :: pending).count .leftParen = pending.count .leftParen :=
        List.count_cons_of_ne (by simp)
      rw [List.length_cons, hcount]
      simp only [topPrecedence]
      omega

theorem Ascending.length_le (h : Ascending pending) :
    pending.length ≤ 3 * pending.count .leftParen + 2 := by
  have hlength := h.length_le_topPrecedence
  have htop := topPrecedence_le pending
  omega

theorem map_released_prefix_self (ready : Operator → Bool) (pending : List Pending) :
    (released ready pending).map .operator <+: pending :=
  ⟨kept ready pending, map_released_append_kept ready pending⟩

theorem Ascending.length_released (h : Ascending pending) : (released ready pending).length ≤ 2 :=
  h.length_stretch (map_released_prefix_self ready pending).isInfix

end Pending

/-! ### One step -/

theorem ReversePolish.length_of_execute {ops : List Operator} {stack left : List Int}
    {steps : List Reduction} (h : execute (ops.map .apply) stack = ⟨.ok left, steps⟩) :
    steps.length = ops.length := by
  have hops := (conserved_of_execute h).2.1
  rw [filterMap_operator?_apply] at hops
  rw [← hops, List.length_map]

namespace Evaluation

open ReversePolish Pending

variable {e next : Evaluation} {failure : Failure} {ready : Operator → Bool}
variable {operands : List Int} {history : List Reduction} {pending : List Pending}

theorem unwind_ok (h : unwind ready operands history pending = .ok e) :
    ∃ steps, execute ((released ready pending).map .apply) operands = ⟨.ok e.operands, steps⟩ ∧
      e.pending = kept ready pending ∧ e.history = steps.reverse ++ history := by
  have heq := unwind_eq ready operands history pending
  rw [h] at heq
  rcases hx : execute ((released ready pending).map .apply) operands with ⟨_ | left, steps⟩
  · rw [hx] at heq
    contradiction
  · rw [hx] at heq
    obtain rfl := Except.ok.inj heq
    exact ⟨steps, rfl, rfl, rfl⟩

theorem reduce_ok {op : Operator} {step : Reduction} {left : List Int}
    (h : reduce op operands = .ok (step, left)) :
    ∃ lhs rhs rest value, operands = rhs :: lhs :: rest ∧ op.apply lhs rhs = .ok value ∧
      step = ⟨lhs, op, rhs, value⟩ ∧ left = value :: rest := by
  match operands with
  | [] | [_] => contradiction
  | rhs :: lhs :: rest =>
    rw [reduce] at h
    split at h
    · rename_i value hv
      obtain ⟨rfl, rfl⟩ := Prod.mk.inj (Except.ok.inj h)
      exact ⟨lhs, rhs, rest, value, rfl, hv, rfl, rfl⟩
    · contradiction

/-- Where unwinding fails, the operators before the one that fails have been applied, and
what waits below it still waits. -/
theorem unwind_error (h : unwind ready operands history pending = .error failure) :
    ∃ applied op middle steps,
      pending = applied.map .operator ++ .operator op :: failure.left.pending ∧
      (∀ o ∈ applied ++ [op], ready o = true) ∧
      execute (applied.map .apply) operands = ⟨.ok middle, steps⟩ ∧
      reduce op middle = .error (failure.fault, failure.left.operands) ∧
      failure.left.history = steps.reverse ++ history := by
  induction pending generalizing operands history with
  | nil => contradiction
  | cons entry pending ih =>
    cases entry with
    | leftParen => contradiction
    | operator op =>
      rw [unwind] at h
      split at h
      · rename_i hready
        split at h
        · rename_i step left hstep
          obtain ⟨applied, last, middle, steps, hpending, hall, hx, hr, hh⟩ := ih h
          obtain ⟨lhs, rhs, rest, value, rfl, hv, rfl, rfl⟩ := reduce_ok hstep
          refine ⟨op :: applied, last, middle, ⟨lhs, op, rhs, value⟩ :: steps, ?_, ?_, ?_, hr, ?_⟩
          · rw [hpending, List.map_cons, List.cons_append]
          · exact List.forall_mem_cons.2 ⟨hready, hall⟩
          · rw [List.map_cons, execute_apply_ok hv, hx]
          · simpa using hh
        · rename_i fault left hstep
          obtain rfl := Except.error.inj h
          exact ⟨[], op, operands, [], rfl, by simpa using hready, rfl, hstep, rfl⟩
      · contradiction

variable {t : Token}

theorem feed_ok (h : e.feed t = .ok next) : advance e.pending t = some next.pending := by
  have hone : e.feedAll [t] = .ok next := by
    rw [feedAll_cons, h]
    rfl
  obtain ⟨_, ha, -⟩ := feedAll_eq_ok.1 hone
  obtain ⟨pending, ht, hp⟩ := advanceAll_cons_eq_some.1 ha
  rw [ht]
  exact hp

private theorem bind_eq_error {α β ε : Type} {x : Except ε α} {next : α → Except ε β}
    {error : ε} :
    x >>= next = .error error ↔ x = .error error ∨ ∃ a, x = .ok a ∧ next a = .error error := by
  cases x <;> simp [bind, Except.bind]

/-- A token fails because an operator fails that it applies, or because it closes a parenthesis
and none is open. -/
theorem feed_error (h : e.feed t = .error failure) :
    ((t = .rightParen ∨ ∃ op, t = .operator op) ∧
      ∃ ready, unwind ready e.operands e.history e.pending = .error failure) ∨
    (t = .rightParen ∧ unwind (fun _ => true) e.operands e.history e.pending = .ok failure.left ∧
      failure.fault = .malformedExpression ∧ kept (fun _ => true) e.pending = []) := by
  cases t with
  | number value | leftParen => contradiction
  | operator op =>
    rw [feed, pushOperator] at h
    rcases bind_eq_error.1 h with hu | ⟨left, _, hreturn⟩
    · exact .inl ⟨.inr ⟨op, rfl⟩, _, hu⟩
    · contradiction
  | rightParen =>
    rw [feed, closeGroup] at h
    rcases bind_eq_error.1 h with hu | ⟨left, hu, hclose⟩
    · exact .inl ⟨.inl rfl, _, hu⟩
    · obtain ⟨_, -, hkept, -⟩ := unwind_ok hu
      split at hclose
      · contradiction
      · rename_i hnone
        obtain rfl := Except.error.inj hclose
        refine .inr ⟨rfl, hu, rfl, ?_⟩
        rw [hkept] at hnone
        rcases hk : kept (fun _ => true) e.pending with _ | ⟨op | _, rest⟩
        · rfl
        · exact absurd hk (kept_ne_operator op rest)
        · exact absurd hk (hnone rest)

/-- A token that fails only takes entries off the top. -/
theorem feed_error_suffix (h : e.feed t = .error failure) :
    failure.left.pending <:+ e.pending := by
  rcases feed_error h with ⟨-, ready, hu⟩ | ⟨-, hu, -, -⟩
  · obtain ⟨applied, op, _, _, hpending, -⟩ := unwind_error hu
    rw [hpending]
    exact (List.suffix_cons _ _).trans (List.suffix_append _ _)
  · obtain ⟨_, -, hkept, -⟩ := unwind_ok hu
    rw [hkept]
    exact kept_suffix _ _

/-- An operator brings about two reductions at most, one that fails included. -/
theorem length_steps_operator (h : Ascending e.pending) (op : Operator) :
    match e.feed (.operator op) with
    | .ok next => ∃ steps, next.history = steps ++ e.history ∧ steps.length ≤ 2
    | .error failure =>
      ∃ steps, failure.left.history = steps ++ e.history ∧ steps.length + 1 ≤ 2 := by
  rw [feed, pushOperator]
  cases hu : unwind (fun top => op.precedence ≤ top.precedence) e.operands e.history e.pending with
  | ok next =>
    obtain ⟨steps, hx, -, hhistory⟩ := unwind_ok hu
    have hreleased : (released (op.precedence ≤ ·.precedence) e.pending).length ≤ 2 :=
      h.length_released
    refine ⟨steps.reverse, hhistory, ?_⟩
    rw [List.length_reverse, length_of_execute hx]
    exact hreleased
  | error failure =>
    obtain ⟨applied, last, middle, steps, hpending, -, hx, -, hhistory⟩ := unwind_error hu
    have hstretch : (applied ++ [last]).map Pending.operator <:+: e.pending := by
      rw [hpending]
      exact ⟨[], failure.left.pending, by simp⟩
    have htwo := h.length_stretch hstretch
    refine ⟨steps.reverse, hhistory, ?_⟩
    rw [List.length_reverse, length_of_execute hx]
    simpa using htwo

end Evaluation

/-! ### Sessions -/

namespace Session

open Pending

variable {e : Evaluation}

theorem ascending_feed (h : Ascending e.pending) (t : Token) :
    Ascending (afterFeeding (e.feed t)).2.pending := by
  cases hf : e.feed t with
  | ok next => exact h.advance (Evaluation.feed_ok hf)
  | error failure => exact h.suffix (Evaluation.feed_error_suffix hf)

theorem ascending_feedAll (h : Ascending e.pending) (ts : List Token) :
    Ascending (afterFeeding (e.feedAll ts)).2.pending := by
  induction ts generalizing e with
  | nil => exact h
  | cons t ts ih =>
    have ht := ascending_feed h t
    rw [Evaluation.feedAll_cons]
    cases hf : e.feed t with
    | ok next =>
      rw [hf] at ht
      exact ih ht
    | error failure =>
      rw [hf] at ht
      exact ht

theorem ascending_step (h : Ascending e.pending) (command : Command) :
    Ascending (step e command).2.pending := by
  cases command with
  | feed t => exact ascending_feed h t
  | text text => exact ascending_feedAll h (tokenize text)
  | finish =>
    have hfresh : (step e .finish).2 = {} := by
      rw [step]
      split <;> rfl
    rw [hfresh]
    exact List.isChain_nil

theorem ascending_run (h : Ascending e.pending) (commands : List Command) :
    Ascending (run e commands).pending := by
  induction commands generalizing e with
  | nil => exact h
  | cons command commands ih => exact ih (ascending_step h command)

/-- The shape of the waiting entries in every state that a session can reach. The states
inside a text are among them, as its tokens can also be fed one by one. -/
theorem run_shape (commands : List Command) :
    let e := run {} commands
    (∀ upper lower, [.operator upper, .operator lower] <:+: e.pending →
      lower.precedence < upper.precedence) ∧
    (∀ ops : List Operator, ops.map .operator <:+: e.pending → ops.length ≤ 2) ∧
    (∀ entry op, [entry, .operator op] <:+: e.pending → op = .mul ∨ op = .div →
      entry = .leftParen) ∧
    e.pending.length ≤ 3 * e.pending.count .leftParen + 2 ∧
    ∀ op, match e.feed (.operator op) with
      | .ok next => ∃ steps, next.history = steps ++ e.history ∧ steps.length ≤ 2
      | .error failure =>
        ∃ steps, failure.left.history = steps ++ e.history ∧ steps.length + 1 ≤ 2 := by
  intro e
  have h : Ascending e.pending := ascending_run (e := {}) List.isChain_nil commands
  refine ⟨fun upper lower hi => ?_, fun ops hi => h.length_stretch hi, fun entry op hi hop => ?_,
    h.length_le, fun op => Evaluation.length_steps_operator h op⟩
  · have ht : Tighter (.operator upper) (.operator lower) := List.isChain_pair.1 (h.part hi)
    exact ht
  · exact h.eq_leftParen hi (by rcases hop with rfl | rfl <;> rfl)

/-- After `(2 + 3 * +`, where the second reduction fails, and `4 - 5 * (6 - 7 * 8`. -/
theorem run_shape_after_failure :
    let e := run {} [.text "(2+3*", .feed (.operator .add), .text "4-5*(6-7*8"]
    e.pending = [.operator .mul, .operator .sub, .leftParen, .operator .mul, .operator .sub,
      .leftParen] ∧
    Operator.precedence .sub < Operator.precedence .mul ∧
    ([.mul, .sub] : List Operator).length ≤ 2 ∧
    (∀ entry, [entry, .operator .mul] <:+: e.pending → entry = .leftParen) ∧
    e.pending.length ≤ 3 * e.pending.count .leftParen + 2 ∧
    ∃ next steps, e.feed (.operator .add) = .ok next ∧ next.history = steps ++ e.history ∧
      steps.length ≤ 2 := by
  intro e
  have hp : e.pending = [.operator .mul, .operator .sub, .leftParen, .operator .mul,
      .operator .sub, .leftParen] := by decide +kernel
  have hi : [.operator .mul, .operator .sub] <:+: e.pending := ⟨[], _, hp.symm⟩
  obtain ⟨hlower, hstretch, htop, hlength, hsteps⟩ :=
    run_shape [.text "(2+3*", .feed (.operator .add), .text "4-5*(6-7*8"]
  refine ⟨hp, hlower _ _ hi, hstretch _ hi, fun entry h => htop entry _ h (.inl rfl), hlength, ?_⟩
  obtain ⟨steps, hhistory, htwo⟩ := hsteps .add
  exact ⟨_, steps, rfl, hhistory, htwo⟩

end Session

end IntegerCalc
