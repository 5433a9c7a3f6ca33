import IntegerCalc.Proofs.Translation
import Mathlib.Algebra.Order.Group.Multiset

/-! Conservation. A number that was fed or computed is an operand of exactly one
reduction or still on the stack; an operator that was fed is applied exactly once or
still waits. Order is left out of account, so that the statements are about multisets,
for tokens in any order. -/

namespace IntegerCalc

namespace Token

def number? : Token → Option Int
  | number value => some value
  | _ => none

def operator? : Token → Option Operator
  | operator op => some op
  | _ => none

end Token

/-- What was fed, `ts`, against what was applied and what is left. -/
structure Conserved (ts : List Token) (reductions : List Reduction) (operands : List Int)
    (pending : List Pending) : Prop where
  applied : ∀ r ∈ reductions, r.op.apply r.lhs r.rhs = .ok r.value
  numbers : (↑(ts.filterMap Token.number?) + ↑(reductions.map Reduction.value) : Multiset Int) =
    ↑(reductions.map Reduction.lhs) + ↑(reductions.map Reduction.rhs) + ↑operands
  operators : (↑(ts.filterMap Token.operator?) : Multiset Operator) =
    ↑(reductions.map Reduction.op) + ↑(pending.filterMap Pending.operator?)
  parentheses : pending.count .leftParen + ts.count .rightParen = ts.count .leftParen

namespace Conserved

variable {ts : List Token} {reductions : List Reduction} {operands : List Int}
variable {pending : List Pending} {value : Int}

theorem reverse (h : Conserved ts reductions operands pending) :
    Conserved ts reductions.reverse operands pending where
  applied r hr := h.applied r (List.mem_reverse.1 hr)
  numbers := by simpa only [List.map_reverse, Multiset.coe_reverse] using h.numbers
  operators := by simpa only [List.map_reverse, Multiset.coe_reverse] using h.operators
  parentheses := h.parentheses

theorem length_numbers (h : Conserved ts reductions [value] []) :
    (ts.filterMap Token.number?).length = (ts.filterMap Token.operator?).length + 1 := by
  have hn := congrArg Multiset.card h.numbers
  have ho := congrArg Multiset.card h.operators
  simp at hn ho
  omega

theorem count_leftParen (h : Conserved ts reductions operands []) :
    ts.count .leftParen = ts.count .rightParen := by
  have hp := h.parentheses
  rw [List.count_nil] at hp
  omega

end Conserved

/-! ### Instructions -/

namespace ReversePolish

def Instruction.number? : Instruction → Option Int
  | push value => some value
  | apply _ => none

def Instruction.operator? : Instruction → Option Operator
  | push _ => none
  | apply op => some op

variable {code : List Instruction} {stack left : List Int} {reductions : List Reduction}

/-- Instructions that succeed apply each operator once, in order, and neither lose nor
double a number. -/
theorem conserved_of_execute (h : execute code stack = ⟨.ok left, reductions⟩) :
    (∀ r ∈ reductions, r.op.apply r.lhs r.rhs = .ok r.value) ∧
      reductions.map Reduction.op = code.filterMap Instruction.operator? ∧
      (↑(code.filterMap Instruction.number?) + ↑stack + ↑(reductions.map Reduction.value) :
          Multiset Int) =
        ↑(reductions.map Reduction.lhs) + ↑(reductions.map Reduction.rhs) + ↑left := by
  induction code generalizing stack reductions with
  | nil =>
    rw [execute_nil, Execution.mk.injEq, Except.ok.injEq] at h
    obtain ⟨rfl, rfl⟩ := h
    simp
  | cons instruction code ih =>
    cases instruction with
    | push value =>
      rw [execute_push] at h
      obtain ⟨happlied, hop, hnumber⟩ := ih h
      refine ⟨happlied, hop, ?_⟩
      rw [← hnumber]
      simp only [List.filterMap_cons, Instruction.number?, ← Multiset.cons_coe, Multiset.cons_add,
        Multiset.add_cons]
    | apply op =>
      obtain ⟨lhs, rhs, rest, value, later, rfl, hv, hx, rfl⟩ := execute_apply_eq_ok.1 h
      obtain ⟨happlied, hop, hnumber⟩ := ih hx
      refine ⟨?_, ?_, ?_⟩
      · simpa [hv] using happlied
      · simp [hop, Instruction.operator?]
      · simp only [← Multiset.cons_coe, Multiset.cons_add, Multiset.add_cons] at hnumber
        simp only [List.filterMap_cons, Instruction.number?, List.map_cons, ← Multiset.cons_coe,
          Multiset.cons_add, Multiset.add_cons, ← hnumber]
        rw [Multiset.cons_swap value rhs, Multiset.cons_swap value lhs]

/-! ### Tokens and their instructions -/

/-- `code` and `next` hold what `pending` and `ts` held. -/
structure Accounted (pending : List Pending) (ts : List Token) (code : List Instruction)
    (next : List Pending) : Prop where
  numbers : code.filterMap Instruction.number? = ts.filterMap Token.number?
  operators : (↑(pending.filterMap Pending.operator?) + ↑(ts.filterMap Token.operator?) :
      Multiset Operator) =
    ↑(code.filterMap Instruction.operator?) + ↑(next.filterMap Pending.operator?)
  parentheses : next.count .leftParen + ts.count .rightParen =
    pending.count .leftParen + ts.count .leftParen

theorem filterMap_number?_apply (ops : List Operator) :
    (ops.map Instruction.apply).filterMap Instruction.number? = [] := by
  simp [Instruction.number?, List.filterMap_map, Function.comp_def]

theorem filterMap_operator?_apply (ops : List Operator) :
    (ops.map Instruction.apply).filterMap Instruction.operator? = ops := by
  simp [Instruction.operator?, List.filterMap_map, Function.comp_def]

namespace Accounted

open Pending

variable {pending next last : List Pending} {a b : List Token} {c d : List Instruction}

theorem append (h : Accounted pending a c next) (h' : Accounted next b d last) :
    Accounted pending (a ++ b) (c ++ d) last where
  numbers := by rw [List.filterMap_append, List.filterMap_append, h.numbers, h'.numbers]
  operators := by
    rw [List.filterMap_append, List.filterMap_append, ← Multiset.coe_add, ← Multiset.coe_add,
      ← add_assoc, h.operators, add_assoc, h'.operators, add_assoc]
  parentheses := by
    have hp := h.parentheses
    have hp' := h'.parentheses
    rw [List.count_append, List.count_append]
    omega

theorem token {t : Token} (h : advance pending t = some next) :
    Accounted pending [t] (emit pending t) next := by
  cases t with
  | number value =>
    obtain rfl := Option.some_inj.1 h
    exact ⟨rfl, (add_zero _).trans (zero_add _).symm, rfl⟩
  | leftParen =>
    obtain rfl := Option.some_inj.1 h
    exact ⟨rfl, (add_zero _).trans (zero_add _).symm, by simp⟩
  | operator op =>
    obtain rfl := Option.some_inj.1 h
    refine ⟨filterMap_number?_apply _, ?_, by simp [count_kept]⟩
    rw [emit, filterMap_operator?_apply,
      ← released_append_kept (op.precedence ≤ ·.precedence) pending, ← Multiset.coe_add, add_assoc]
    congr 1
    exact Multiset.coe_eq_coe.2 (List.perm_append_singleton op _)
  | rightParen =>
    have hr := released_append_kept (fun _ => true) pending
    have hc := count_kept (fun _ => true) pending
    simp only [advance] at h
    split at h
    · rename_i rest hrest
      obtain rfl := Option.some_inj.1 h
      rw [hrest] at hr hc
      refine ⟨filterMap_number?_apply _, ?_, ?_⟩
      · rw [emit, filterMap_operator?_apply, ← hr, ← Multiset.coe_add]
        exact add_zero _
      · simpa using hc
    · contradiction

theorem tokens {ts : List Token} (h : advanceAll pending ts = some next) :
    Accounted pending ts (emitAll pending ts) next := by
  induction ts generalizing pending with
  | nil =>
    rw [advanceAll_nil, Option.some_inj] at h
    rw [h]
    exact ⟨rfl, by simp, rfl⟩
  | cons t ts ih =>
    obtain ⟨middle, ht, hts⟩ := advanceAll_cons_eq_some.1 h
    rw [emitAll_cons ht]
    exact (token ht).append (ih hts)

theorem rest (h : kept (fun _ => true) pending = []) :
    Accounted pending [] (emitRest pending) [] := by
  have hr := released_append_kept (fun _ => true) pending
  rw [h, List.filterMap_nil, List.append_nil] at hr
  refine ⟨filterMap_number?_apply _, ?_, ?_⟩
  · rw [emitRest, filterMap_operator?_apply, hr]
    simp
  · rw [kept_eq_nil.1 h]
    rfl

theorem conserved {ts : List Token} {code : List Instruction} (h : Accounted [] ts code next)
    (hx : execute code [] = ⟨.ok left, reductions⟩) : Conserved ts reductions left next := by
  obtain ⟨happlied, hop, hnumber⟩ := conserved_of_execute hx
  refine ⟨happlied, ?_, ?_, ?_⟩
  · rw [← h.numbers, ← hnumber, Multiset.coe_nil, add_zero]
  · rw [hop, ← h.operators, List.filterMap_nil, Multiset.coe_nil, zero_add]
  · rw [h.parentheses, List.count_nil, Nat.zero_add]

end Accounted

end ReversePolish

/-! ### Evaluations -/

open ReversePolish

variable {ts : List Token} {value : Int}

theorem conserved_of_evaluate (h : evaluate ts = .ok value) :
    ∃ reductions, Conserved ts reductions [value] [] := by
  obtain ⟨pending, ha, hc, hr⟩ := evaluate_eq_ok.1 h
  rw [run_eq_value, Execution.value_eq_ok] at hr
  rcases hx : execute (emitAll [] ts ++ emitRest pending) [] with ⟨result, reductions⟩
  rw [hx] at hr
  obtain rfl : result = .ok [value] := hr
  have hall := (Accounted.tokens ha).append (.rest hc)
  rw [List.append_nil] at hall
  exact ⟨reductions, hall.conserved hx⟩

/-- Nothing is lost or doubled in any state that tokens lead to without a failure. If the
end of the expression is accepted there, every operator was applied. -/
theorem feedAll_conserves {e : Evaluation} (h : Evaluation.feedAll {} ts = .ok e) :
    Conserved ts e.history e.operands e.pending ∧
      ∀ value, e.finish.result = .ok value →
        Conserved ts e.finish.reductions [value] [] ∧
          (ts.filterMap Token.number?).length = (ts.filterMap Token.operator?).length + 1 ∧
          ts.count .leftParen = ts.count .rightParen := by
  obtain ⟨reductions, ha, hx, hh⟩ := Evaluation.feedAll_eq_ok.1 h
  have hfed := Accounted.tokens ha
  refine ⟨?_, fun value hv => ?_⟩
  · rw [hh, List.append_nil]
    exact (hfed.conserved hx).reverse
  · obtain ⟨hc, more, hm, hreductions⟩ := Evaluation.finish_result_eq_ok hv
    have hall := hfed.append (.rest hc)
    have hboth : execute (emitAll [] ts ++ emitRest e.pending) [] =
        ⟨.ok [value], e.finish.reductions⟩ := by
      rw [execute_append, hx, Execution.ok_andThen, hm, hreductions, hh, List.append_nil,
        List.reverse_reverse]
    rw [List.append_nil] at hall
    have hend := hall.conserved hboth
    exact ⟨hend, hend.length_numbers, hend.count_leftParen⟩

/-- `(2) (3) + 4 *`, where both operators wait until the end. -/
theorem feedAll_conserves_waiting :
    let ts : List Token := [.leftParen, .number 2, .rightParen, .leftParen, .number 3, .rightParen,
      .operator .add, .number 4, .operator .mul]
    ∃ e, Evaluation.feedAll {} ts = .ok e ∧ e.finish.result = .ok 14 ∧
      Conserved ts e.history e.operands e.pending ∧
      Conserved ts e.finish.reductions [14] [] := by
  refine ⟨_, rfl, rfl, (feedAll_conserves rfl).1, ((feedAll_conserves rfl).2 14 rfl).1⟩

end IntegerCalc
