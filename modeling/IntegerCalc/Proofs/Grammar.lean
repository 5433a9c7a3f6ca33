import IntegerCalc.Proofs.Conservation
import IntegerCalc.Proofs.Infix

/-! The tokens that evaluation accepts. It never checks that operands and operators
alternate, but unless operands stand side by side, tokens that do not alternate hold
too few numbers for their operators. Alternating tokens with balanced parentheses are
spelled by a tree, which is built from the left as an open context. -/

namespace IntegerCalc

open ReversePolish

/-! ### Alternation -/

namespace Token

def startsOperand : Token → Bool
  | number _ => true
  | leftParen => true
  | _ => false

def endsOperand : Token → Bool
  | number _ => true
  | rightParen => true
  | _ => false

/-- Operands and operators in turn, an operand first if one is due, up to an operand. -/
def Alternates (due : Bool) : List Token → Prop
  | [] => due = false
  | t :: ts => t.startsOperand = due ∧ Alternates (!t.endsOperand) ts

theorem startsOperand_of_juxtaposed {a b : Token} (h : a.juxtaposed b = false)
    (ha : a.endsOperand = true) : b.startsOperand = false := by
  cases a <;> cases b <;> simp_all [juxtaposed, endsOperand, startsOperand]

/-- An operator or the end of a group where an operand is due costs one number; nothing
gains one. -/
theorem length_token {due : Bool} {t : Token} (h : due = false → t.startsOperand = false) :
    ([t].filterMap number?).length + (!due).toNat ≤
        ([t].filterMap operator?).length + t.endsOperand.toNat ∧
      (([t].filterMap number?).length + (!due).toNat =
        ([t].filterMap operator?).length + t.endsOperand.toNat → t.startsOperand = due) := by
  cases t <;> cases due <;>
    simp [List.filterMap_cons, number?, operator?, startsOperand, endsOperand] at h ⊢

/-- There is at most one number more than operators, and one more only if both alternate.
An operand that was read before, when none is due, counts as a number. -/
theorem alternates_of_length (due : Bool) (ts : List Token)
    (hj : ts.IsChain fun a b => a.juxtaposed b = false)
    (hfirst : due = false → ∀ t ∈ ts.head?, t.startsOperand = false) :
    (ts.filterMap number?).length + (!due).toNat ≤ (ts.filterMap operator?).length + 1 ∧
      ((ts.filterMap number?).length + (!due).toNat = (ts.filterMap operator?).length + 1 →
        Alternates due ts) := by
  induction ts generalizing due with
  | nil => cases due <;> simp [Alternates]
  | cons t ts ih =>
    obtain ⟨hhead, htail⟩ := List.isChain_cons.1 hj
    have hnext : (!t.endsOperand) = false → ∀ s ∈ ts.head?, s.startsOperand = false :=
      fun ht s hs => startsOperand_of_juxtaposed (hhead s hs) (by simpa using ht)
    obtain ⟨hle, heq⟩ := ih (!t.endsOperand) htail hnext
    obtain ⟨htle, hteq⟩ := length_token fun hd => hfirst hd t rfl
    rw [Bool.not_not] at hle heq
    rw [← List.singleton_append, List.filterMap_append, List.filterMap_append,
      List.length_append, List.length_append]
    exact ⟨by omega, fun h => ⟨hteq (by omega), heq (by omega)⟩⟩

end Token

/-! ### Open contexts -/

namespace Operator

theorem joins (op : Operator) : op.Joins .sum .product ∨ op.Joins .product .factor := by
  cases op with
  | add => exact .inl .add
  | sub => exact .inl .sub
  | mul => exact .inr .mul
  | div => exact .inr .div

variable {op : Operator} {layer : Layer}

theorem Joins.eq_product (h : op.Joins layer .factor) : layer = .product := by
  cases h <;> rfl

theorem Joins.eq_sum (h : op.Joins layer .product) : layer = .sum := by
  cases h <;> rfl

end Operator

namespace Expression

/-- A tree with a gap for an expression of the layer, as far as it stands before the gap. -/
inductive Context : Layer → Type where
  | top : Context .sum
  | group (outer : Context .factor) : Context .sum
  | ofProduct (outer : Context .sum) : Context .product
  | ofFactor (outer : Context .product) : Context .factor
  | binary (op : Operator) {layer right : Layer} (h : op.Joins layer right)
      (lhs : Expression layer) (outer : Context layer) : Context right

namespace Context

def tokens {layer : Layer} : Context layer → List Token
  | top => []
  | group outer => outer.tokens ++ [.leftParen]
  | ofProduct outer => outer.tokens
  | ofFactor outer => outer.tokens
  | binary op _ lhs outer => outer.tokens ++ lhs.tokens ++ [.operator op]

/-- The groups around the gap. -/
def depth {layer : Layer} : Context layer → Nat
  | top => 0
  | group outer => outer.depth + 1
  | ofProduct outer => outer.depth
  | ofFactor outer => outer.depth
  | binary _ _ _ outer => outer.depth

theorem exists_product (c : Context .factor) (f : Expression .factor) :
    ∃ (outer : Context .product) (e : Expression .product),
      outer.tokens ++ e.tokens = c.tokens ++ f.tokens ∧ outer.depth = c.depth := by
  cases c with
  | ofFactor outer => exact ⟨outer, .ofFactor f, rfl, rfl⟩
  | binary op h lhs outer =>
    obtain rfl := h.eq_product
    exact ⟨outer, .binary op h lhs f, by simp [tokens, Expression.tokens], rfl⟩

theorem exists_sum (c : Context .product) (p : Expression .product) :
    ∃ (outer : Context .sum) (e : Expression .sum),
      outer.tokens ++ e.tokens = c.tokens ++ p.tokens ∧ outer.depth = c.depth := by
  cases c with
  | ofProduct outer => exact ⟨outer, .ofProduct p, rfl, rfl⟩
  | binary op h lhs outer =>
    obtain rfl := h.eq_sum
    exact ⟨outer, .binary op h lhs p, by simp [tokens, Expression.tokens], rfl⟩

/-- The end of the innermost group makes a factor of what stands in it. -/
theorem exists_closed (c : Context .product) (p : Expression .product) (h : c.depth ≠ 0) :
    ∃ (outer : Context .product) (e : Expression .product),
      outer.tokens ++ e.tokens = c.tokens ++ p.tokens ++ [.rightParen] ∧
        outer.depth + 1 = c.depth := by
  obtain ⟨inner, body, hbody, hinner⟩ := c.exists_sum p
  cases inner with
  | top => exact absurd hinner.symm h
  | binary _ hjoins => contradiction
  | group around =>
    obtain ⟨outer, e, htokens, hdepth⟩ := around.exists_product (.group body)
    refine ⟨outer, e, ?_, ?_⟩
    · rw [htokens, ← hbody]
      simp [tokens, Expression.tokens]
    · rw [hdepth, ← hinner]
      rfl

end Context

/-- Alternating tokens fill the gap of a context whose groups they close, whether the gap
is empty or a product stands in it that may go on. -/
theorem exists_of_alternates (ts : List Token) :
    (∀ c : Context .factor, Token.Alternates true ts → openAfter c.depth ts = some 0 →
      ∃ e : Expression .sum, e.tokens = c.tokens ++ ts) ∧
    (∀ (c : Context .product) (p : Expression .product), Token.Alternates false ts →
      openAfter c.depth ts = some 0 →
        ∃ e : Expression .sum, e.tokens = c.tokens ++ p.tokens ++ ts) := by
  induction ts with
  | nil =>
    refine ⟨fun c ha _ => absurd ha (by simp [Token.Alternates]), fun c p _ hd => ?_⟩
    obtain ⟨outer, e, htokens, hdepth⟩ := c.exists_sum p
    rw [← hdepth] at hd
    cases outer with
    | top => exact ⟨e, by rw [List.append_nil, ← htokens]; rfl⟩
    | group outer => simp [openAfter, Context.depth] at hd
    | binary _ hjoins => contradiction
  | cons t ts ih =>
    obtain ⟨hgap, hproduct⟩ := ih
    constructor
    · rintro c ⟨ht, ha⟩ hd
      cases t with
      | number value =>
        obtain ⟨outer, p, htokens, hdepth⟩ := c.exists_product (.number value)
        obtain ⟨e, he⟩ := hproduct outer p ha (hdepth ▸ hd)
        exact ⟨e, by rw [he, htokens, List.append_assoc]; rfl⟩
      | leftParen =>
        obtain ⟨e, he⟩ := hgap (.ofFactor (.ofProduct (.group c))) ha hd
        exact ⟨e, by simp [he, Context.tokens]⟩
      | operator op => exact absurd ht (by simp [Token.startsOperand])
      | rightParen => exact absurd ht (by simp [Token.startsOperand])
    · rintro c p ⟨ht, ha⟩ hd
      cases t with
      | number value => exact absurd ht (by simp [Token.startsOperand])
      | leftParen => exact absurd ht (by simp [Token.startsOperand])
      | operator op =>
        rcases op.joins with hop | hop
        · obtain ⟨outer, lhs, htokens, hdepth⟩ := c.exists_sum p
          obtain ⟨e, he⟩ := hgap (.ofFactor (.binary op hop lhs outer)) ha (hdepth ▸ hd)
          exact ⟨e, by simp [he, Context.tokens, htokens]⟩
        · obtain ⟨e, he⟩ := hgap (.binary op hop p c) ha hd
          exact ⟨e, by simp [he, Context.tokens]⟩
      | rightParen =>
        have hopen : c.depth ≠ 0 := by
          intro hzero
          simp [openAfter, hzero] at hd
        obtain ⟨outer, q, htokens, hdepth⟩ := c.exists_closed p hopen
        have hclosed : openAfter outer.depth ts = some 0 := by
          simpa [openAfter, ← hdepth] using hd
        obtain ⟨e, he⟩ := hproduct outer q ha hclosed
        exact ⟨e, by simp [he, htokens]⟩

theorem exists_tokens_eq {ts : List Token} (ha : Token.Alternates true ts)
    (hb : ReversePolish.Balanced ts) : ∃ e : Expression .sum, e.tokens = ts :=
  (exists_of_alternates ts).1 (.ofFactor (.ofProduct .top)) ha hb

end Expression

/-! ### Acceptance -/

variable {ts : List Token} {value : Int}

theorem alternates_of_evaluate (hj : ts.IsChain fun a b => a.juxtaposed b = false)
    (h : evaluate ts = .ok value) : Token.Alternates true ts := by
  obtain ⟨reductions, hc⟩ := conserved_of_evaluate h
  exact (Token.alternates_of_length true ts hj (by simp)).2 hc.length_numbers

/-- Unless operands stand side by side or a group is empty, what evaluates is exactly what
a tree spells that divides by nothing that is zero, and its value is that of the tree. -/
theorem evaluate_eq_ok_iff_exists_expression
    (hj : ts.IsChain fun a b => a.juxtaposed b = false) :
    evaluate ts = .ok value ↔
      ∃ e : Expression .sum, e.tokens = ts ∧ e.dividesByZero = false ∧ e.value = value := by
  have hrun : ∀ e : Expression .sum, evaluate e.tokens = .ok value ↔
      e.dividesByZero = false ∧ e.value = value := by
    intro e
    rw [e.evaluate_tokens_eq_run, e.run_code]
    cases e.dividesByZero <;> simp
  constructor
  · intro h
    obtain ⟨pending, ha, hc, -⟩ := evaluate_eq_ok.1 h
    obtain ⟨e, rfl⟩ := Expression.exists_tokens_eq (alternates_of_evaluate hj h)
      (balanced_iff.2 ⟨pending, ha, hc⟩)
    exact ⟨e, rfl, (hrun e).1 h⟩
  · rintro ⟨e, rfl, h⟩
    exact (hrun e).2 h

/-- `-7 / (2 - 4) * 3`. -/
theorem exists_expression_grouped :
    let ts : List Token := [.number (-7), .operator .div, .leftParen, .number 2, .operator .sub,
      .number 4, .rightParen, .operator .mul, .number 3]
    (ts.IsChain fun a b => a.juxtaposed b = false) ∧
      ∃ e : Expression .sum, e.tokens = ts ∧ e.dividesByZero = false ∧ e.value = 9 :=
  ⟨by decide, (evaluate_eq_ok_iff_exists_expression (by decide)).1 rfl⟩

end IntegerCalc
