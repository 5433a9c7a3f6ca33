import IntegerCalc.Expression
import IntegerCalc.Proofs.Translation

/-! Infix expressions. The tokens of a tree translate to its instructions in
post-order, up to the operators at its right edge, which wait. What waited before
is not touched as long as it binds less tightly than the tree. The value of the
tokens is therefore that of the tree, whatever parentheses the tree keeps. -/

namespace IntegerCalc

open ReversePolish Pending

/-- The least precedence of an operator outside the parentheses of this layer. -/
def Layer.precedence : Layer → Nat
  | sum => 1
  | product => 2
  | factor => 3

/-- The layers nest as tightly as their operators bind. -/
theorem Operator.Joins.precedence {op : Operator} {layer right : Layer}
    (h : op.Joins layer right) :
    op.precedence = layer.precedence ∧ right.precedence = layer.precedence + 1 := by
  cases h <;> exact ⟨rfl, rfl⟩

namespace Expression

variable {layer : Layer}

/-- The value that the tree states is the one that its operator computes. -/
theorem value_binary (op : Operator) {right : Layer} (h : op.Joins layer right)
    (lhs : Expression layer) (rhs : Expression right) :
    (binary op h lhs rhs).value = op.compute lhs.value rhs.value := by
  cases op <;> rfl

/-- The instructions in post-order. -/
def code {layer : Layer} : Expression layer → List Instruction
  | number value => [.push value]
  | group body => body.code
  | ofFactor e => e.code
  | ofProduct e => e.code
  | binary op _ lhs rhs => lhs.code ++ rhs.code ++ [.apply op]

/-- The operators that wait after the last token, the latest first. -/
def waiting {layer : Layer} : Expression layer → List Operator
  | number _ => []
  | group _ => []
  | ofFactor e => e.waiting
  | ofProduct e => e.waiting
  | binary op _ _ rhs => rhs.waiting ++ [op]

theorem precedence_waiting (e : Expression layer) :
    ∀ op ∈ e.waiting, layer.precedence ≤ op.precedence := by
  induction e with
  | number _ => simp [waiting]
  | group _ _ => simp [waiting]
  | ofFactor e ih | ofProduct e ih =>
    intro op h
    have hop := ih op h
    simp only [Layer.precedence] at hop ⊢
    omega
  | binary op h lhs rhs _ ih =>
    intro o ho
    obtain ⟨hop, hright⟩ := h.precedence
    rcases List.mem_append.1 ho with ho | ho
    · have hwaiting := ih o ho
      omega
    · rw [List.mem_singleton.1 ho, hop]

/-! ### The translation of the tokens -/

/-- After the tokens `waiting` waits on top of `pending`. Together with it they have
the translation `code`. -/
structure Translates (pending : List Pending) (ts : List Token) (waiting : List Operator)
    (code : List Instruction) : Prop where
  waits : advanceAll pending ts = some (waiting.map .operator ++ pending)
  emits : emitAll pending ts ++ waiting.map .apply = code

namespace Translates

variable {pending : List Pending} {a b ts : List Token} {l r waiting : List Operator}
variable {cl cr code : List Instruction} {op : Operator}

theorem number (value : Int) : Translates pending [.number value] [] [.push value] :=
  ⟨rfl, rfl⟩

theorem group (h : Translates (.leftParen :: pending) ts waiting code) :
    Translates pending (.leftParen :: ts ++ [.rightParen]) [] code := by
  have hk : kept (fun _ => true) (waiting.map .operator ++ .leftParen :: pending) =
      .leftParen :: pending := kept_append waiting (by simp) stops_leftParen
  have hr : released (fun _ => true) (waiting.map .operator ++ .leftParen :: pending) = waiting :=
    released_append waiting (by simp) stops_leftParen
  have hopen : advance pending .leftParen = some (.leftParen :: pending) := rfl
  have hclose : advance (waiting.map .operator ++ .leftParen :: pending) .rightParen =
      some pending := by simp only [advance, hk]
  refine ⟨?_, ?_⟩
  · rw [List.cons_append, advanceAll_cons, hopen, Option.bind_some, advanceAll_append, h.waits,
      Option.bind_some, advanceAll_cons, hclose]
    rfl
  · rw [List.cons_append, emitAll_cons hopen, emitAll_append h.waits, emitAll_cons hclose,
      ← h.emits]
    simp [emit, hr]

/-- An operator that binds no tighter than what waits after its left operand, but
tighter than what waited before. -/
theorem binary (hl : Translates pending a l cl) (hr : Translates (.operator op :: pending) b r cr)
    (hw : ∀ o ∈ l, op.precedence ≤ o.precedence)
    (hs : Stops (op.precedence ≤ ·.precedence) pending) :
    Translates pending (a ++ .operator op :: b) (r ++ [op]) (cl ++ cr ++ [.apply op]) := by
  have hk : kept (op.precedence ≤ ·.precedence) (l.map .operator ++ pending) = pending :=
    kept_append l (by simpa using hw) hs
  have hreleased : released (op.precedence ≤ ·.precedence) (l.map .operator ++ pending) = l :=
    released_append l (by simpa using hw) hs
  have hop : advance (l.map .operator ++ pending) (.operator op) =
      some (.operator op :: pending) := by simp only [advance, hk]
  refine ⟨?_, ?_⟩
  · rw [advanceAll_append, hl.waits, Option.bind_some, advanceAll_cons, hop, Option.bind_some,
      hr.waits]
    simp
  · rw [emitAll_append hl.waits, emitAll_cons hop, ← hl.emits, ← hr.emits]
    simp [emit, hreleased]

end Translates

theorem translates (e : Expression layer) {pending : List Pending}
    (h : Stops (layer.precedence ≤ ·.precedence) pending) :
    Translates pending e.tokens e.waiting e.code := by
  induction e generalizing pending with
  | number value => exact .number value
  | group body ih => exact .group (ih stops_leftParen)
  | ofFactor e ih | ofProduct e ih =>
    refine ih (h.mono fun op hop => decide_eq_true ?_)
    exact Nat.le_trans (by decide) (of_decide_eq_true hop)
  | binary op hjoins lhs rhs ihl ihr =>
    obtain ⟨hop, hright⟩ := hjoins.precedence
    refine .binary (ihl h) (ihr (stops_operator.2 ?_)) ?_ ?_
    · simp [hop, hright]
    · rw [hop]; exact lhs.precedence_waiting
    · rw [hop]; exact h

theorem advanceAll_tokens (e : Expression .sum) :
    advanceAll [] e.tokens = some (e.waiting.map .operator) := by
  rw [(e.translates stops_nil).waits, List.append_nil]

theorem evaluate_tokens_eq_run (e : Expression .sum) : evaluate e.tokens = run e.code := by
  have hk : kept (fun _ => true) (e.waiting.map .operator ++ []) = [] :=
    kept_append e.waiting (by simp) stops_nil
  have hr : released (fun _ => true) (e.waiting.map .operator ++ []) = e.waiting :=
    released_append e.waiting (by simp) stops_nil
  rw [List.append_nil] at hk hr
  rw [evaluate_eq_run e.advanceAll_tokens hk, emitRest, hr, (e.translates stops_nil).emits]

/-! ### The execution of the instructions -/

theorem map_step_nodes (e : Expression layer) (grouped followed : Bool) :
    (e.nodes grouped followed).map Node.step = e.steps := by
  have h : ∀ g f g' f', (e.nodes g f).map Node.step = (e.nodes g' f').map Node.step := by
    induction e with
    | number _ => intros; rfl
    | group _ ih | ofFactor _ ih | ofProduct _ ih => exact fun _ _ _ _ => ih _ _ _ _
    | binary op _ lhs rhs ihl ihr =>
      intro g f g' f'
      simp only [nodes, List.map_append, ihl g true g' true, ihr g f g' f', List.map_cons,
        List.map_nil]
  exact h _ _ _ _

theorem steps_group (body : Expression .sum) : (group body).steps = body.steps :=
  body.map_step_nodes true false

theorem steps_binary (op : Operator) {right : Layer} (h : op.Joins layer right)
    (lhs : Expression layer) (rhs : Expression right) :
    (binary op h lhs rhs).steps =
      lhs.steps ++ rhs.steps ++ [⟨lhs.value, op, rhs.value, (binary op h lhs rhs).value⟩] := by
  rw [steps, nodes, List.map_append, List.map_append, map_step_nodes, map_step_nodes]
  rfl

end Expression

namespace ReversePolish

/-- What comes of `steps` that lead to `stack`: they stop before the first division by
zero. -/
def Execution.ofSteps (steps : List Reduction) (stack : List Int) : Execution :=
  ⟨if steps.any Reduction.dividesByZero then .error .divisionByZero else .ok stack,
    steps.takeWhile (!·.dividesByZero)⟩

@[simp] theorem Execution.ofSteps_nil (stack : List Int) : ofSteps [] stack = ⟨.ok stack, []⟩ := rfl

theorem Execution.ofSteps_cons (r : Reduction) (steps : List Reduction) (stack : List Int) :
    ofSteps (r :: steps) stack =
      if r.dividesByZero then ⟨.error .divisionByZero, []⟩
      else ⟨(ofSteps steps stack).result, r :: (ofSteps steps stack).reductions⟩ := by
  cases h : r.dividesByZero <;> simp [ofSteps, h]

theorem Execution.ofSteps_andThen {a b : List Reduction} {stack left : List Int}
    {next : List Int → Execution} (h : next stack = ofSteps b left) :
    (ofSteps a stack).andThen next = ofSteps (a ++ b) left := by
  induction a with
  | nil => simp [andThen, h]
  | cons r a ih =>
    rw [List.cons_append, ofSteps_cons, ofSteps_cons, ← ih]
    cases r.dividesByZero with
    | true => rfl
    | false =>
      simp only [Bool.false_eq_true, if_false, andThen]
      cases (ofSteps a stack).result <;> rfl

theorem execute_apply_ofSteps (op : Operator) (lhs rhs : Int) (stack : List Int) :
    execute [.apply op] (rhs :: lhs :: stack) =
      .ofSteps [⟨lhs, op, rhs, op.compute lhs rhs⟩] (op.compute lhs rhs :: stack) := by
  rw [Execution.ofSteps_cons, Reduction.dividesByZero]
  by_cases h : op = .div ∧ rhs = 0
  · rw [execute_apply_error (Operator.apply_eq_error.2 ⟨h, rfl⟩)]
    simp [h]
  · rw [execute_apply_ok (Operator.apply_eq_ok.2 ⟨h, rfl⟩)]
    simp [h]

end ReversePolish

namespace Expression

variable {layer : Layer}

theorem execute_code (e : Expression layer) (stack : List Int) :
    execute e.code stack = .ofSteps e.steps (e.value :: stack) := by
  induction e generalizing stack with
  | number value => rfl
  | group body ih => rw [steps_group]; exact ih stack
  | ofFactor _ ih | ofProduct _ ih => exact ih stack
  | binary op h lhs rhs ihl ihr =>
    rw [code, execute_append, execute_append, ihl, Execution.ofSteps_andThen (ihr _),
      Execution.ofSteps_andThen (execute_apply_ofSteps ..), steps_binary, value_binary]

theorem run_code (e : Expression layer) :
    run e.code = if e.dividesByZero then .error .divisionByZero else .ok e.value := by
  rw [run_eq_value, execute_code, dividesByZero]
  unfold Execution.ofSteps Execution.value
  cases e.steps.any Reduction.dividesByZero <;> rfl

/-- The tokens of a tree evaluate to its value, unless it divides by zero. They are
never malformed. -/
theorem evaluate_tokens (e : Expression .sum) :
    evaluate e.tokens = if e.dividesByZero then .error .divisionByZero else .ok e.value := by
  rw [evaluate_tokens_eq_run, run_code]

end Expression

end IntegerCalc
