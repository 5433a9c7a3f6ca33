import IntegerCalc.ReversePolish

/-! Execution of reverse Polish instructions with a record of the reductions they
make. The stack that is left, or the fault, is that of the plain machine. -/

namespace IntegerCalc.ReversePolish

/-- The stack that instructions leave, and the reductions made until then. -/
structure Execution where
  result : Except Fault (List Int)
  reductions : List Reduction

def Execution.andThen (x : Execution) (next : List Int → Execution) : Execution :=
  match x.result with
  | .ok stack => ⟨(next stack).result, x.reductions ++ (next stack).reductions⟩
  | .error fault => ⟨.error fault, x.reductions⟩

@[simp] theorem Execution.ok_andThen (stack : List Int) (reductions : List Reduction)
    (next : List Int → Execution) :
    andThen ⟨.ok stack, reductions⟩ next =
      ⟨(next stack).result, reductions ++ (next stack).reductions⟩ := rfl

@[simp] theorem Execution.error_andThen (fault : Fault) (reductions : List Reduction)
    (next : List Int → Execution) :
    andThen ⟨.error fault, reductions⟩ next = ⟨.error fault, reductions⟩ := rfl

def Execution.value (x : Execution) : Except Fault Int :=
  match x.result with
  | .ok [value] => .ok value
  | .ok _ => .error .malformedExpression
  | .error fault => .error fault

def execute : List Instruction → List Int → Execution
  | [], stack => ⟨.ok stack, []⟩
  | .push value :: code, stack => execute code (value :: stack)
  | .apply op :: code, rhs :: lhs :: stack =>
    match op.apply lhs rhs with
    | .ok value => Execution.andThen ⟨.ok (value :: stack), [⟨lhs, op, rhs, value⟩]⟩ (execute code)
    | .error fault => ⟨.error fault, []⟩
  | .apply _ :: _, _ => ⟨.error .malformedExpression, []⟩

variable {lhs rhs value : Int} {stack : List Int} {op : Operator} {code : List Instruction}

@[simp] theorem execute_nil (stack : List Int) : execute [] stack = ⟨.ok stack, []⟩ := rfl

@[simp] theorem execute_push (value : Int) (code : List Instruction) (stack : List Int) :
    execute (.push value :: code) stack = execute code (value :: stack) := by
  simp [execute]

theorem execute_apply_ok (h : op.apply lhs rhs = .ok value) :
    execute (.apply op :: code) (rhs :: lhs :: stack) =
      ⟨(execute code (value :: stack)).result,
        ⟨lhs, op, rhs, value⟩ :: (execute code (value :: stack)).reductions⟩ := by
  simp [execute, h, Execution.andThen]

theorem execute_apply_error {fault : Fault} (h : op.apply lhs rhs = .error fault) :
    execute (.apply op :: code) (rhs :: lhs :: stack) = ⟨.error fault, []⟩ := by
  simp [execute, h]

theorem execute_apply_eq_ok {left : List Int} {reductions : List Reduction} :
    execute (.apply op :: code) stack = ⟨.ok left, reductions⟩ ↔
      ∃ lhs rhs rest value later, stack = rhs :: lhs :: rest ∧ op.apply lhs rhs = .ok value ∧
        execute code (value :: rest) = ⟨.ok left, later⟩ ∧
        reductions = ⟨lhs, op, rhs, value⟩ :: later := by
  constructor
  · intro h
    match stack with
    | [] | [_] => simp [execute] at h
    | rhs :: lhs :: rest =>
      cases hv : op.apply lhs rhs with
      | error fault => simp [execute_apply_error hv] at h
      | ok value =>
        rw [execute_apply_ok hv, Execution.mk.injEq] at h
        exact ⟨lhs, rhs, rest, value, _, rfl, hv, by rw [← h.1], h.2.symm⟩
  · rintro ⟨lhs, rhs, rest, value, later, rfl, hv, hx, rfl⟩
    rw [execute_apply_ok hv, hx]

theorem execute_append (a b : List Instruction) (stack : List Int) :
    execute (a ++ b) stack = (execute a stack).andThen (execute b) := by
  induction a generalizing stack with
  | nil => simp [Execution.andThen]
  | cons instruction a ih =>
    cases instruction with
    | push value => simp [ih]
    | apply op =>
      match stack with
      | [] | [_] => simp [execute, Execution.andThen]
      | rhs :: lhs :: stack =>
        cases h : op.apply lhs rhs with
        | error fault => simp [execute_apply_error h, Execution.andThen]
        | ok value =>
          simp only [List.cons_append, execute_apply_ok h, ih, Execution.andThen]
          split <;> simp

theorem execute_result (code : List Instruction) (stack : List Int) :
    (execute code stack).result = code.foldlM step stack := by
  induction code generalizing stack with
  | nil => rfl
  | cons instruction code ih =>
    rw [List.foldlM_cons]
    cases instruction with
    | push value => rw [execute_push, ih]; rfl
    | apply op =>
      match stack with
      | [] | [_] => rfl
      | rhs :: lhs :: stack =>
        cases h : op.apply lhs rhs with
        | error fault => rw [execute_apply_error h]; simp only [step, h]; rfl
        | ok value => rw [execute_apply_ok h, ih]; simp only [step, h]; rfl

theorem Execution.value_eq_ok {x : Execution} : x.value = .ok value ↔ x.result = .ok [value] := by
  unfold Execution.value
  match x.result with
  | .error _ | .ok [] | .ok [_] | .ok (_ :: _ :: _) => simp

theorem run_eq_value (code : List Instruction) : run code = (execute code []).value := by
  unfold run Execution.value
  rw [execute_result]
  match code.foldlM step [] with
  | .error _ | .ok [] | .ok [_] | .ok (_ :: _ :: _) => rfl

end IntegerCalc.ReversePolish
