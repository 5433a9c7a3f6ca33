import IntegerCalc.Proofs.Infix
import IntegerCalc.Record

/-! The records of infix expressions. The operators of a tree are applied in post-order, those at
its right edge at the end of the tokens and all others before, as they stand in a group or an
operator follows. Main statement: the records show the tree's operators up to the first division
by zero, and the end of the evaluation if that division does not come before it. -/

namespace IntegerCalc

open ReversePolish Pending

/-! ### Places of operators -/

/-- The operator stands in the tokens as that of an expression, and its values are the values of
the expression's two operands and of the expression itself. It is in a group if one is open there,
or around all of the tokens; it is followed if an operator comes after its right operand, in the
tokens or after them. -/
def Node.Stands (n : Node) (grouped followed : Bool) (ts : List Token) : Prop :=
  ∃ (before after : List Token) (op : Operator) (left right : Layer) (h : op.Joins left right)
    (lhs : Expression left) (rhs : Expression right),
    ts = before ++ (lhs.tokens ++ .operator op :: rhs.tokens) ++ after ∧
    n.step = ⟨lhs.value, op, rhs.value, (Expression.binary op h lhs rhs).value⟩ ∧
    before.count .rightParen ≤ before.count .leftParen ∧
    (n.grouped = true ↔
      grouped = true ∨ before.count .rightParen < before.count .leftParen) ∧
    (n.followed = true ↔ followed = true ∨ ∃ op, .operator op ∈ after)

namespace Node

variable {n : Node} {grouped followed : Bool} {ts : List Token}

/-- Tokens on both sides of `ts`, with which the operator is grouped or followed if it is in `ts`
alone under the other flags. -/
theorem Stands.within {grouped' followed' : Bool} (h : n.Stands grouped followed ts)
    (a b : List Token) (ha : a.count .rightParen ≤ a.count .leftParen)
    (hg : grouped = true ↔ grouped' = true ∨ a.count .rightParen < a.count .leftParen)
    (hf : followed = true ↔ followed' = true ∨ ∃ op, .operator op ∈ b) :
    n.Stands grouped' followed' (a ++ ts ++ b) := by
  obtain ⟨before, after, op, left, right, hjoins, lhs, rhs, rfl, hstep, hle, hgrouped,
    hfollowed⟩ := h
  have hopen : (a ++ before).count .rightParen < (a ++ before).count .leftParen ↔
      a.count .rightParen < a.count .leftParen ∨
        before.count .rightParen < before.count .leftParen := by
    simp only [List.count_append]
    omega
  have hoperator : (∃ op, .operator op ∈ after ++ b) ↔
      (∃ op, .operator op ∈ b) ∨ ∃ op, .operator op ∈ after := by
    simp only [List.mem_append, exists_or]
    exact or_comm
  refine ⟨a ++ before, after ++ b, op, left, right, hjoins, lhs, rhs, by simp, hstep, ?_, ?_, ?_⟩
  · simp only [List.count_append]
    omega
  · rw [hgrouped, hg, hopen, or_assoc]
  · rw [hfollowed, hf, hoperator, or_assoc]

theorem stands_self (op : Operator) {left right : Layer} (h : op.Joins left right)
    (lhs : Expression left) (rhs : Expression right) :
    Stands ⟨⟨lhs.value, op, rhs.value, (Expression.binary op h lhs rhs).value⟩, grouped, followed⟩
      grouped followed (Expression.binary op h lhs rhs).tokens :=
  ⟨[], [], op, left, right, h, lhs, rhs, by simp [Expression.tokens], rfl, Nat.le_refl _, by simp,
    by simp⟩

end Node

namespace Expression

variable {layer : Layer}

theorem count_tokens (e : Expression layer) :
    e.tokens.count .rightParen = e.tokens.count .leftParen := by
  induction e with
  | number value => rfl
  | group body ih => simp [tokens, ih]
  | ofFactor e ih | ofProduct e ih => exact ih
  | binary op h lhs rhs ihl ihr => simp [tokens, ihl, ihr]

theorem stands_of_mem_nodes {n : Node} {grouped followed : Bool} (e : Expression layer)
    (h : n ∈ e.nodes grouped followed) : n.Stands grouped followed e.tokens := by
  induction e generalizing grouped followed with
  | number value => contradiction
  | group body ih => exact (ih h).within [.leftParen] [.rightParen] (by decide) (by simp) (by simp)
  | ofFactor e ih | ofProduct e ih => exact ih h
  | binary op hop lhs rhs ihl ihr =>
    rw [nodes, List.mem_append, List.mem_append, List.mem_singleton] at h
    rcases h with (h | h) | rfl
    · exact (ihl h).within [] (.operator op :: rhs.tokens) (Nat.le_refl _) (by simp) (by simp)
    · have hclosed : (lhs.tokens ++ [Token.operator op]).count .rightParen =
          (lhs.tokens ++ [Token.operator op]).count .leftParen := by simp [lhs.count_tokens]
      have hright : n.Stands grouped followed (lhs.tokens ++ [.operator op] ++ rhs.tokens ++ []) :=
        (ihr h).within _ _ hclosed.le (by simp [hclosed]) (by simp)
      simpa [tokens] using hright
    · exact Node.stands_self op hop lhs rhs

end Expression

/-! ### Before the end of the tokens -/

/-- The operator is applied before the end of the tokens. -/
def Node.settled (n : Node) : Bool := n.grouped || n.followed

namespace Expression

variable {layer : Layer}

/-- The operators that are applied before the end of the tokens. -/
def early {layer : Layer} : Expression layer → List Node
  | number _ => []
  | group body => body.nodes true false
  | ofFactor e => e.early
  | ofProduct e => e.early
  | binary _ _ lhs rhs => lhs.nodes false true ++ rhs.early

/-- The operators that wait for the end. -/
def late {layer : Layer} : Expression layer → List Node
  | number _ => []
  | group _ => []
  | ofFactor e => e.late
  | ofProduct e => e.late
  | binary op h lhs rhs =>
    rhs.late ++ [⟨⟨lhs.value, op, rhs.value, (binary op h lhs rhs).value⟩, false, false⟩]

theorem early_append_late (e : Expression layer) : e.early ++ e.late = e.nodes false false := by
  induction e with
  | number value => rfl
  | group body ih => exact List.append_nil _
  | ofFactor e ih | ofProduct e ih => exact ih
  | binary op h lhs rhs ihl ihr =>
    simp only [early, late, nodes, ← ihr, List.append_assoc]

theorem settled_of_mem_nodes {grouped followed : Bool} (e : Expression layer)
    (h : (grouped || followed) = true) : ∀ n ∈ e.nodes grouped followed, n.settled = true := by
  induction e generalizing grouped followed with
  | number value => simp [nodes]
  | group body ih => exact ih rfl
  | ofFactor e ih | ofProduct e ih => exact ih h
  | binary op hop lhs rhs ihl ihr =>
    intro n hn
    rw [nodes, List.mem_append, List.mem_append, List.mem_singleton] at hn
    rcases hn with (hn | hn) | rfl
    · exact ihl (Bool.or_true _) n hn
    · exact ihr h n hn
    · exact h

theorem settled_of_mem_early (e : Expression layer) : ∀ n ∈ e.early, n.settled = true := by
  induction e with
  | number value => simp [early]
  | group body ih => exact body.settled_of_mem_nodes rfl
  | ofFactor e ih | ofProduct e ih => exact ih
  | binary op h lhs rhs ihl ihr =>
    exact List.forall_mem_append.2 ⟨lhs.settled_of_mem_nodes rfl, ihr⟩

theorem not_settled_of_mem_late (e : Expression layer) : ∀ n ∈ e.late, n.settled = false := by
  induction e with
  | number value | group body ih => simp [late]
  | ofFactor e ih | ofProduct e ih => exact ih
  | binary op h lhs rhs ihl ihr =>
    exact List.forall_mem_append.2 ⟨ihr, by simp [Node.settled]⟩

/-- The instructions of the operators that do not wait for the end. -/
def emitted {layer : Layer} : Expression layer → List Instruction
  | number value => [.push value]
  | group body => body.code
  | ofFactor e => e.emitted
  | ofProduct e => e.emitted
  | binary _ _ lhs rhs => lhs.code ++ rhs.emitted

theorem emitted_append_waiting (e : Expression layer) :
    e.emitted ++ e.waiting.map .apply = e.code := by
  induction e with
  | number value => rfl
  | group body ih => exact List.append_nil _
  | ofFactor e ih | ofProduct e ih => exact ih
  | binary op h lhs rhs ihl ihr =>
    simp only [emitted, waiting, code, ← ihr, List.map_append, List.append_assoc, List.map_cons,
      List.map_nil]

theorem emitAll_tokens (e : Expression .sum) : emitAll [] e.tokens = e.emitted := by
  have hcode := (e.translates stops_nil).emits
  rw [← emitted_append_waiting] at hcode
  exact List.append_cancel_right hcode

/-- The instructions make the early steps, on top of any operands. -/
theorem execute_emitted (e : Expression layer) :
    ∃ operands, ∀ stack, execute e.emitted stack =
      .ofSteps (e.early.map Node.step) (operands ++ stack) := by
  induction e with
  | number value => exact ⟨[value], fun _ => rfl⟩
  | group body ih =>
    refine ⟨[body.value], fun stack => ?_⟩
    rw [early, map_step_nodes]
    exact body.execute_code stack
  | ofFactor e ih | ofProduct e ih => exact ih
  | binary op h lhs rhs ihl ihr =>
    obtain ⟨operands, hright⟩ := ihr
    refine ⟨operands ++ [lhs.value], fun stack => ?_⟩
    rw [emitted, execute_append, execute_code, Execution.ofSteps_andThen (hright _), early,
      List.map_append, map_step_nodes, List.append_assoc, List.singleton_append]

/-- The first division by zero, if there is one, fails at the end or before it. -/
theorem any_early_eq (e : Expression .sum) :
    (e.early.map Node.step).any Reduction.dividesByZero =
      !((e.nodes false false).find? (·.step.dividesByZero)).all (!·.settled) := by
  rw [← early_append_late, List.find?_append, List.any_map]
  cases hearly : e.early.find? (·.step.dividesByZero) with
  | some n =>
    have hn := List.mem_of_find?_eq_some hearly
    have hzero := List.find?_some hearly
    have hany : e.early.any (Reduction.dividesByZero ∘ Node.step) = true :=
      List.any_eq_true.2 ⟨n, hn, hzero⟩
    simp [hany, e.settled_of_mem_early n hn]
  | none =>
    have hany : e.early.any (Reduction.dividesByZero ∘ Node.step) = false := by
      simpa using hearly
    cases hlate : e.late.find? (·.step.dividesByZero) with
    | none => simp [hany]
    | some n => simp [hany, e.not_settled_of_mem_late n (List.mem_of_find?_eq_some hlate)]

/-! ### Reports and records -/

theorem report_tokens (e : Expression .sum) :
    (report e.tokens).reductions = e.steps.takeWhile (!·.dividesByZero) ∧
      (report e.tokens).complete =
        ((e.nodes false false).find? (·.step.dividesByZero)).all (!·.settled) := by
  obtain ⟨operands, hearly⟩ := e.execute_emitted
  have hreleased : released (fun _ => true) (e.waiting.map .operator ++ []) = e.waiting :=
    released_append e.waiting (by simp) stops_nil
  rw [List.append_nil] at hreleased
  rw [report_eq_of_advanceAll e.advanceAll_tokens, emitRest, hreleased, emitAll_tokens,
    emitted_append_waiting, execute_code, hearly]
  refine ⟨rfl, ?_⟩
  simp only [Execution.ofSteps, any_early_eq]
  cases ((e.nodes false false).find? (·.step.dividesByZero)).all (!·.settled) <;> rfl

/-- The records of a text that spells an infix expression, after those of what was passed over.
The steps of the tree are in post-order, up to the first division by zero. The end is recorded
unless that division is in a group or an operator follows it. -/
theorem records_eq_steps (e : Expression .sum) {text : String} (h : tokenize text = e.tokens) :
    let nodes := e.nodes false false
    let failing := nodes.find? (·.step.dividesByZero)
    (calculate text).records =
        (read text).discarded.map .discarded ++
        (nodes.takeWhile (!·.step.dividesByZero)).map (.reduced ·.step) ++
        (if failing.all (fun n => !n.grouped && !n.followed) then
          [.evaluated e.tokens.length (process text)] else []) ∧
      ∀ n ∈ nodes, n.Stands false false e.tokens := by
  intro nodes failing
  refine ⟨?_, fun n hn => e.stands_of_mem_nodes hn⟩
  obtain ⟨hreductions, hcomplete⟩ := e.report_tokens
  have hsettled : (fun n : Node => !n.grouped && !n.followed) = fun n => !n.settled := by
    funext n
    exact (Bool.not_or _ _).symm
  have hsteps : (nodes.takeWhile (!·.step.dividesByZero)).map (Record.reduced ·.step) =
      (e.steps.takeWhile (!·.dividesByZero)).map .reduced := by
    rw [steps, List.takeWhile_map, List.map_map]
    rfl
  rw [records_calculate, h, Report.records, hreductions, hcomplete, ← hsteps, ← hsettled,
    List.append_assoc, process, report_calculate, h]
  rfl

/-- `8 - 4 / (1 - 1)`, where the division fails at the end, and `(4 / 0) * 2 - 1`, where it fails at
the end of its group. -/
theorem records_eq_steps_division :
    let one : Expression .product := .ofFactor (.number 1)
    let four : Expression .product := .ofFactor (.number 4)
    let last : Expression .sum := .binary .sub .sub (.ofProduct (.ofFactor (.number 8)))
      (.binary .div .div four (.group (.binary .sub .sub (.ofProduct one) one)))
    let first : Expression .sum := .binary .sub .sub (.ofProduct (.binary .mul .mul
      (.ofFactor (.group (.ofProduct (.binary .div .div four (.number 0))))) (.number 2))) one
    tokenize "8 - 4é/(1-1)" = last.tokens ∧
      (calculate "8 - 4é/(1-1)").records = [.discarded ⟨5, 7⟩, .reduced ⟨1, .sub, 1, 0⟩,
        .evaluated 9 (.error .divisionByZero)] ∧
      tokenize "(4/0)*2-1" = first.tokens ∧ (calculate "(4/0)*2-1").records = [] := by
  intro one four last first
  have hlast : tokenize "8 - 4é/(1-1)" = last.tokens := by decide +kernel
  have hfirst : tokenize "(4/0)*2-1" = first.tokens := by decide +kernel
  exact ⟨hlast, (last.records_eq_steps hlast).1, hfirst, (first.records_eq_steps hfirst).1⟩

end Expression

end IntegerCalc
