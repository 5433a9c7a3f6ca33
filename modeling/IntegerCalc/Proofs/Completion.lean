import IntegerCalc.Proofs.StackShape

/-! Completion. Where the waiting entries ascend, the tokens so far can be completed: ones
make up for operands that are missing, a one in front of each closing parenthesis keeps every
divisor from being zero, and additions use up the operands in excess. Main statement: tokens
are accepted one by one exactly if some continuation of them has a value. -/

namespace IntegerCalc

/-! ### Operators with enough operands -/

namespace ReversePolish

variable {ops : List Operator} {stack left : List Int} {steps : List Reduction}

/-- Each operator takes two operands and leaves one. -/
theorem length_left_of_execute (h : execute (ops.map .apply) stack = ⟨.ok left, steps⟩) :
    left.length + ops.length = stack.length := by
  have hsteps := length_of_execute h
  have hnumbers := congrArg Multiset.card (conserved_of_execute h).2.2
  rw [filterMap_number?_apply] at hnumbers
  simp only [Multiset.card_add, Multiset.coe_card, List.length_nil, List.length_map] at hnumbers
  omega

theorem execute_ok_of_ne_div (hops : ∀ op ∈ ops, op ≠ .div) (hstack : ops.length < stack.length) :
    ∃ left steps, execute (ops.map .apply) stack = ⟨.ok left, steps⟩ := by
  induction ops generalizing stack with
  | nil => exact ⟨stack, [], rfl⟩
  | cons op ops ih =>
    obtain ⟨hop, hops⟩ := List.forall_mem_cons.1 hops
    match stack with
    | rhs :: lhs :: rest =>
      have happly : op.apply lhs rhs = .ok (op.compute lhs rhs) :=
        Operator.apply_eq_ok.2 ⟨fun h => hop h.1, rfl⟩
      have hrest : ops.length < (op.compute lhs rhs :: rest).length := by
        simp only [List.length_cons] at hstack ⊢
        omega
      obtain ⟨left, steps, hx⟩ := ih hops hrest
      exact ⟨left, _, by rw [List.map_cons, execute_apply_ok happly, hx]⟩
    | [_] => simp at hstack
    | [] => simp at hstack

/-- With a one on top the first operator may also divide. -/
theorem execute_one_ok (hops : ∀ op ∈ ops.tail, op ≠ .div) (hstack : ops.length ≤ stack.length) :
    ∃ left steps, execute (ops.map .apply) (1 :: stack) = ⟨.ok left, steps⟩ := by
  match ops, stack with
  | [], stack => exact ⟨1 :: stack, [], rfl⟩
  | op :: ops, lhs :: rest =>
    have happly : op.apply lhs 1 = .ok (op.compute lhs 1) :=
      Operator.apply_eq_ok.2 ⟨fun h => Int.one_ne_zero h.2, rfl⟩
    have hrest : ops.length < (op.compute lhs 1 :: rest).length := by
      simp only [List.length_cons] at hstack ⊢
      omega
    have hops : ∀ later ∈ ops, later ≠ .div := hops
    obtain ⟨left, steps, hx⟩ := execute_ok_of_ne_div hops hrest
    exact ⟨left, _, by rw [List.map_cons, execute_apply_ok happly, hx]⟩
  | _ :: _, [] => simp at hstack

end ReversePolish

namespace Pending

variable {pending : List Pending} {ready : Operator → Bool}

/-- Of the operators that are applied together only the first can divide. -/
theorem Ascending.ne_div_of_mem_tail (h : Ascending pending) :
    ∀ op ∈ (released ready pending).tail, op ≠ .div := by
  have hchain := h.part (map_released_prefix_self ready pending).isInfix
  have hlength : (released ready pending).length ≤ 2 := h.length_released
  match released ready pending, hchain, hlength with
  | [], _, _ | [_], _, _ => simp
  | [upper, lower], hchain, _ =>
    have ht : Tighter (.operator upper) (.operator lower) := List.isChain_pair.1 hchain
    have hupper := upper.precedence_eq
    rintro op hop rfl
    obtain rfl := List.mem_singleton.1 hop
    simp only [Tighter, Operator.precedence] at ht hupper
    omega

end Pending

namespace Evaluation

open ReversePolish Pending

variable {e next : Evaluation} {ready : Operator → Bool}

/-! ### Ways to a value -/

/-- Some tokens lead on to a value. -/
def Completable (e : Evaluation) : Prop :=
  ∃ more next value, e.feedAll more = .ok next ∧ next.finish.result = .ok value

theorem Completable.of_feedAll {ts : List Token} (h : e.feedAll ts = .ok next)
    (hn : next.Completable) : e.Completable := by
  obtain ⟨more, last, value, hmore, hvalue⟩ := hn
  exact ⟨ts ++ more, last, value, by rw [feedAll_append, h]; exact hmore, hvalue⟩

/-- An addition that waits above two operands or more uses them up, one for each further `+`. -/
theorem completable_of_add (excess : Nat) (hpending : e.pending = [.operator .add])
    (hoperands : e.operands.length = excess + 2) : e.Completable := by
  obtain ⟨operands, pending, history⟩ := e
  obtain rfl : pending = [.operator .add] := hpending
  induction excess generalizing operands history with
  | zero =>
    obtain ⟨rhs, lhs, rfl⟩ := List.length_eq_two.1 hoperands
    exact ⟨[], _, lhs + rhs, rfl, rfl⟩
  | succ excess ih =>
    match operands with
    | rhs :: lhs :: rest =>
      have hfeed : feedAll ⟨rhs :: lhs :: rest, [.operator .add], history⟩ [.operator .add] =
          .ok ⟨(lhs + rhs) :: rest, [.operator .add], ⟨lhs, .add, rhs, lhs + rhs⟩ :: history⟩ := rfl
      refine .of_feedAll hfeed (ih _ _ ?_)
      simpa using hoperands
    | [_] => simp at hoperands
    | [] => simp at hoperands

/-- The waiting entries ascend, and with one more operand there are enough for all operators. -/
structure Supplied (e : Evaluation) : Prop where
  ascending : Ascending e.pending
  operands : (e.pending.filterMap Pending.operator?).length ≤ e.operands.length

/-- A one and a token that applies operators are accepted, and each of these operators uses
up one operand. -/
theorem Supplied.feedAll_one (h : e.Supplied) {t : Token} {rest : List Pending}
    (hemit : emit e.pending t = (released ready e.pending).map .apply)
    (hadvance : advance e.pending t = some rest) :
    ∃ next, e.feedAll [.number 1, t] = .ok next ∧ next.pending = rest ∧
      next.operands.length + (released ready e.pending).length = e.operands.length + 1 := by
  have hreleased : (released ready e.pending).length ≤ e.operands.length :=
    (Nat.le.intro (length_released_add_kept ready e.pending)).trans h.operands
  obtain ⟨left, steps, hx⟩ := execute_one_ok h.ascending.ne_div_of_mem_tail hreleased
  have hlength := length_left_of_execute hx
  have hnumber : advance e.pending (.number 1) = some e.pending := rfl
  refine ⟨⟨left, rest, steps.reverse ++ e.history⟩, feedAll_eq_ok.2 ⟨steps, ?_, ?_, rfl⟩, rfl,
    hlength⟩
  · rw [advanceAll_cons, hnumber, Option.bind_some, advanceAll_cons, hadvance]
    rfl
  · rw [emitAll_cons hnumber, emitAll_cons hadvance, hemit, emitAll_nil, List.append_nil]
    exact hx

theorem Supplied.closeGroup (h : e.Supplied) {rest : List Pending}
    (hkept : kept (fun _ => true) e.pending = .leftParen :: rest) :
    ∃ next, e.feedAll [.number 1, .rightParen] = .ok next ∧ next.Supplied ∧
      next.pending = rest := by
  have hadvance : advance e.pending .rightParen = some rest := by simp only [advance, hkept]
  obtain ⟨next, hnext, rfl, hlength⟩ := h.feedAll_one rfl hadvance
  refine ⟨next, hnext, ⟨h.ascending.advance hadvance, ?_⟩, rfl⟩
  have hall := length_released_add_kept (fun _ => true) e.pending
  have henough := h.operands
  simp only [hkept, List.filterMap_cons, operator?] at hall
  omega

/-- No parenthesis is open: a `+` applies all operators and waits alone. -/
theorem Supplied.completable_of_closed (h : e.Supplied)
    (hkept : kept (fun _ => true) e.pending = []) : e.Completable := by
  have hready : (fun top : Operator => decide (Operator.add.precedence ≤ top.precedence)) =
      fun _ => true := by
    funext top
    cases top <;> rfl
  have hadvance : advance e.pending (.operator .add) = some [.operator .add] := by
    simp only [advance, hready, hkept]
  have hemit : emit e.pending (.operator .add) =
      (released (fun _ => true) e.pending).map .apply := by
    simp only [emit, hready]
  obtain ⟨next, hnext, hpending, hlength⟩ := h.feedAll_one hemit hadvance
  have hall := length_released_add_kept (fun _ => true) e.pending
  have henough := h.operands
  rw [hkept, List.filterMap_nil, List.length_nil] at hall
  -- One more operand for the `+` itself.
  have hlast : next.feedAll [.number 1] = .ok { next with operands := 1 :: next.operands } := rfl
  refine .of_feedAll hnext (.of_feedAll hlast
    (completable_of_add (next.operands.length - 1) hpending ?_))
  rw [List.length_cons]
  omega

theorem Supplied.completable (h : e.Supplied) : e.Completable := by
  -- On the open parentheses: closing the innermost keeps enough operands for the others.
  induction hdepth : e.pending.count .leftParen generalizing e with
  | zero => exact h.completable_of_closed (kept_eq_nil.2 hdepth)
  | succ depth ih =>
    match hkept : kept (fun _ => true) e.pending with
    | [] => exact absurd (kept_eq_nil.1 hkept) (by omega)
    | .operator op :: rest => exact absurd hkept (kept_ne_operator op rest)
    | .leftParen :: rest =>
      obtain ⟨next, hnext, hsupplied, rfl⟩ := h.closeGroup hkept
      have hcount := count_kept (fun _ => true) e.pending
      rw [hkept, List.count_cons_self, hdepth] at hcount
      exact .of_feedAll hnext (ih hsupplied (Nat.succ.inj hcount))

theorem feedAll_replicate_number (e : Evaluation) (n : Nat) (value : Int) :
    e.feedAll (List.replicate n (.number value)) =
      .ok { e with operands := List.replicate n value ++ e.operands } := by
  induction n generalizing e with
  | zero => rfl
  | succ n ih =>
    rw [List.replicate_succ, feedAll_cons, List.replicate_succ', List.append_assoc]
    exact ih { e with operands := value :: e.operands }

theorem completable_of_ascending (h : Ascending e.pending) : e.Completable := by
  refine .of_feedAll (feedAll_replicate_number e e.pending.length 1)
    (Supplied.completable ⟨h, ?_⟩)
  rw [List.length_append, List.length_replicate]
  exact (List.length_filterMap_le _ _).trans (Nat.le_add_right _ _)

end Evaluation

/-! ### Prefixes of tokens that have a value -/

open Evaluation Pending ReversePolish

variable {a b ts : List Token} {value : Int}

theorem Pending.ascending_of_advanceAll {pending next : List Pending} (h : Ascending pending)
    (ha : advanceAll pending ts = some next) : Ascending next := by
  induction ts generalizing pending with
  | nil => exact Option.some_inj.1 ha ▸ h
  | cons t ts ih =>
    obtain ⟨middle, ht, hts⟩ := advanceAll_cons_eq_some.1 ha
    exact ih (h.advance ht) hts

theorem completable_of_feedAll {e : Evaluation} (h : Evaluation.feedAll {} ts = .ok e) :
    e.Completable := by
  obtain ⟨_, ha, -⟩ := feedAll_eq_ok.1 h
  exact completable_of_ascending (ascending_of_advanceAll List.isChain_nil ha)

theorem evaluate_append_eq_ok :
    evaluate (a ++ b) = .ok value ↔ ∃ e next, Evaluation.feedAll {} a = .ok e ∧
      e.feedAll b = .ok next ∧ next.finish.result = .ok value := by
  rw [evaluate, report, feedAll_append]
  cases Evaluation.feedAll {} a with
  | error failure => simp [Except.bind]
  | ok e =>
    cases hb : e.feedAll b with
    | error failure => simp [Except.bind, hb]
    | ok next => simp [Except.bind, hb]

theorem accepted_iff (ts : List Token) :
    (∃ e, Evaluation.feedAll {} ts = .ok e) ↔ ∃ more value, evaluate (ts ++ more) = .ok value := by
  constructor
  · rintro ⟨e, he⟩
    obtain ⟨more, next, value, hmore, hvalue⟩ := completable_of_feedAll he
    exact ⟨more, value, evaluate_append_eq_ok.2 ⟨e, next, he, hmore, hvalue⟩⟩
  · rintro ⟨more, value, h⟩
    obtain ⟨e, _, he, -⟩ := evaluate_append_eq_ok.1 h
    exact ⟨e, he⟩

/-- Tokens that are accepted one by one are those that some continuation leads to a value, and
after them a token is refused exactly if no continuation of it does. -/
theorem feedAll_ok_iff_exists_continuation (ts : List Token) :
    ((∃ e, Evaluation.feedAll {} ts = .ok e) ↔ ∃ more value, evaluate (ts ++ more) = .ok value) ∧
      ∀ e, Evaluation.feedAll {} ts = .ok e → ∀ t,
        (∃ failure, e.feed t = .error failure) ↔
          ∀ more value, evaluate (ts ++ t :: more) ≠ .ok value := by
  refine ⟨accepted_iff ts, fun e he t => ?_⟩
  have hone : Evaluation.feedAll {} (ts ++ [t]) = e.feed t := by
    rw [feedAll_append, he]
    cases ht : e.feed t <;> simp [Except.bind, ht]
  have hlonger := accepted_iff (ts ++ [t])
  simp only [hone, List.append_assoc, List.singleton_append] at hlonger
  cases ht : e.feed t with
  | error failure => simpa [ht] using hlonger
  | ok next => simpa [ht] using hlonger

/-- `5 / (*` may go on, though two operands are missing, but not with `)`. -/
theorem exists_continuation_open_group :
    let ts : List Token := [.number 5, .operator .div, .leftParen, .operator .mul]
    ∃ e, Evaluation.feedAll {} ts = .ok e ∧ (∃ more value, evaluate (ts ++ more) = .ok value) ∧
      (∃ failure, e.feed .rightParen = .error failure) ∧
      ∀ more value, evaluate (ts ++ .rightParen :: more) ≠ .ok value := by
  intro ts
  obtain ⟨hcontinue, hrefused⟩ := feedAll_ok_iff_exists_continuation ts
  exact ⟨_, rfl, hcontinue.1 ⟨_, rfl⟩, ⟨_, rfl⟩, (hrefused _ rfl .rightParen).1 ⟨_, rfl⟩⟩

end IntegerCalc
