import IntegerCalc.Evaluation
import Mathlib.Data.List.Chain

/-! The entries that unwinding applies and those that it leaves, as the two parts of
the waiting entries at the latest one that is not ready. In all entries that wait
together each operator binds tighter than the operator right below it. -/

namespace IntegerCalc.Pending

def operator? : Pending → Option Operator
  | operator op => some op
  | leftParen => none

variable {ready : Operator → Bool} {pending : List Pending} {op : Operator}

def isReady (ready : Operator → Bool) (entry : Pending) : Bool := entry.operator?.any ready

def released (ready : Operator → Bool) (pending : List Pending) : List Operator :=
  (pending.takeWhile (isReady ready)).filterMap operator?

def kept (ready : Operator → Bool) (pending : List Pending) : List Pending :=
  pending.dropWhile (isReady ready)

@[simp] theorem released_nil : released ready [] = [] := rfl

@[simp] theorem kept_nil : kept ready [] = [] := rfl

@[simp] theorem released_leftParen : released ready (.leftParen :: pending) = [] := rfl

@[simp] theorem kept_leftParen :
    kept ready (.leftParen :: pending) = .leftParen :: pending := rfl

theorem released_operator (ready : Operator → Bool) (op : Operator) (pending : List Pending) :
    released ready (.operator op :: pending) =
      if ready op then op :: released ready pending else [] := by
  unfold released
  split <;> simp_all [isReady, operator?]

theorem kept_operator (ready : Operator → Bool) (op : Operator) (pending : List Pending) :
    kept ready (.operator op :: pending) =
      if ready op then kept ready pending else .operator op :: pending := by
  unfold kept
  split <;> simp_all [isReady, operator?]

theorem released_append_kept (ready : Operator → Bool) (pending : List Pending) :
    released ready pending ++ (kept ready pending).filterMap operator? =
      pending.filterMap operator? := by
  rw [released, kept, ← List.filterMap_append, List.takeWhile_append_dropWhile]

theorem map_released_append_kept (ready : Operator → Bool) (pending : List Pending) :
    (released ready pending).map .operator ++ kept ready pending = pending := by
  induction pending with
  | nil => rfl
  | cons entry pending ih =>
    cases entry with
    | leftParen => rfl
    | operator op =>
      rw [released_operator, kept_operator]
      split
      · rw [List.map_cons, List.cons_append, ih]
      · rfl

theorem mem_of_mem_released (h : op ∈ released ready pending) : .operator op ∈ pending := by
  rw [← map_released_append_kept ready pending]
  exact List.mem_append_left _ (List.mem_map_of_mem h)

theorem length_released_add_kept (ready : Operator → Bool) (pending : List Pending) :
    (released ready pending).length + ((kept ready pending).filterMap operator?).length =
      (pending.filterMap operator?).length := by
  rw [← released_append_kept ready pending, List.length_append]

/-- The latest entry is not an operator that is ready. -/
def Stops (ready : Operator → Bool) (pending : List Pending) : Prop :=
  ∀ entry ∈ pending.head?, isReady ready entry = false

theorem stops_nil : Stops ready [] := by simp [Stops]

theorem stops_leftParen : Stops ready (.leftParen :: pending) := by
  simp [Stops, isReady, operator?]

theorem stops_operator : Stops ready (.operator op :: pending) ↔ ready op = false := by
  simp [Stops, isReady, operator?]

theorem Stops.mono {ready' : Operator → Bool} (h : Stops ready pending)
    (hr : ∀ op, ready' op = true → ready op = true) : Stops ready' pending := by
  match pending with
  | [] => exact stops_nil
  | .leftParen :: _ => exact stops_leftParen
  | .operator op :: _ =>
    rw [stops_operator] at h ⊢
    cases hop : ready' op with
    | false => rfl
    | true => exact absurd (hr op hop) (by simp [h])

theorem stops_kept (ready : Operator → Bool) (pending : List Pending) :
    Stops ready (kept ready pending) := by
  intro entry he
  have h := List.head?_dropWhile_not (isReady ready) pending
  simpa only [show (pending.dropWhile (isReady ready)).head? = some entry from he] using h

theorem Stops.released_eq_nil (h : Stops ready pending) : released ready pending = [] := by
  match pending with
  | [] | .leftParen :: _ => rfl
  | .operator op :: _ => simp [released_operator, stops_operator.1 h]

theorem Stops.kept_eq_self (h : Stops ready pending) : kept ready pending = pending := by
  match pending with
  | [] | .leftParen :: _ => rfl
  | .operator op :: _ => simp [kept_operator, stops_operator.1 h]

theorem released_append (ops : List Operator) (hr : ∀ op ∈ ops, ready op = true)
    (h : Stops ready pending) : released ready (ops.map .operator ++ pending) = ops := by
  induction ops with
  | nil => exact h.released_eq_nil
  | cons op ops ih =>
    have hop := hr op (by simp)
    simp [released_operator, hop, ih fun op h => hr op (by simp [h])]

theorem kept_append (ops : List Operator) (hr : ∀ op ∈ ops, ready op = true)
    (h : Stops ready pending) : kept ready (ops.map .operator ++ pending) = pending := by
  induction ops with
  | nil => exact h.kept_eq_self
  | cons op ops ih =>
    have hop := hr op (by simp)
    simp [kept_operator, hop, ih fun op h => hr op (by simp [h])]

/-! ### Open parentheses -/

theorem kept_eq_nil : kept (fun _ => true) pending = [] ↔ pending.count .leftParen = 0 := by
  induction pending with
  | nil => simp
  | cons entry pending ih => cases entry <;> simp [kept_operator, ih]

theorem kept_ne_operator (op : Operator) (rest : List Pending) :
    kept (fun _ => true) pending ≠ .operator op :: rest := by
  induction pending with
  | nil => simp
  | cons entry pending ih => cases entry <;> simp [kept_operator, ih]

theorem count_kept (ready : Operator → Bool) (pending : List Pending) :
    (kept ready pending).count .leftParen = pending.count .leftParen := by
  induction pending with
  | nil => rfl
  | cons entry pending ih =>
    cases entry with
    | leftParen => rfl
    | operator op => rw [kept_operator]; split <;> simp [ih]

/-! ### Ascending precedence -/

/-- Between neighbours: an operator binds tighter than the one below it. -/
def Tighter : Pending → Pending → Prop
  | .operator upper, .operator lower => lower.precedence < upper.precedence
  | _, _ => True

def Ascending (pending : List Pending) : Prop := pending.IsChain Tighter

theorem kept_suffix (ready : Operator → Bool) (pending : List Pending) :
    kept ready pending <:+ pending := List.dropWhile_suffix _

theorem Ascending.suffix {rest : List Pending} (h : Ascending pending) (hs : rest <:+ pending) :
    Ascending rest := List.IsChain.suffix h hs

theorem Ascending.leftParen (h : Ascending pending) : Ascending (.leftParen :: pending) :=
  List.IsChain.cons h fun _ _ => trivial

theorem Ascending.operator (h : Ascending pending)
    (hs : Stops (op.precedence ≤ ·.precedence) pending) : Ascending (.operator op :: pending) := by
  refine List.IsChain.cons h fun entry he => ?_
  cases entry with
  | leftParen => trivial
  | operator lower =>
    have hl := hs _ he
    simpa [isReady, operator?, Tighter] using hl

/-- Below an operator that is not ready by its precedence no other is. -/
theorem Ascending.stops {p : Nat} (h : Ascending (.operator op :: pending))
    (hop : op.precedence < p) : Stops (p ≤ ·.precedence) pending := by
  intro entry he
  have ht : Tighter (.operator op) entry := (List.isChain_cons.1 h).1 entry he
  cases entry with
  | leftParen => rfl
  | operator lower =>
    simp only [Tighter] at ht
    simp only [isReady, operator?, Option.any_some, decide_eq_false_iff_not]
    omega

end IntegerCalc.Pending
