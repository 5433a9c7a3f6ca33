import IntegerCalc.Proofs.Translation

/-! The translation by position. When the first tokens have been read, the operators
that wait are those of them whose release point is still to come, the latest first.
Main statement: tokens with balanced parentheses evaluate to what their reverse
Polish form by position leaves, in all cases and with the same fault. -/

namespace IntegerCalc

open Pending

namespace ReversePolish

variable {pending next : List Pending} {t : Token} {ts : List Token}

/-! ### Release points -/

theorem releasePoint_cons (t : Token) (ts : List Token) (i : Nat) (op : Operator) :
    releasePoint (t :: ts) (i + 1) op = releasePoint ts i op + 1 := by
  simp only [releasePoint, List.drop_succ_cons]
  omega

theorem releasedAt_succ (t : Token) (ts : List Token) (k i : Nat) :
    releasedAt (t :: ts) (k + 1) (i + 1) = releasedAt ts k i := by
  simp only [releasedAt, List.getElem?_cons_succ, releasePoint_cons, Nat.add_right_cancel_iff]

theorem numberAt_succ (t : Token) (ts : List Token) (k : Nat) :
    numberAt (t :: ts) (k + 1) = numberAt ts k := by
  simp only [numberAt, List.getElem?_cons_succ]

theorem releasedAt_zero (op : Operator) (ts : List Token) (k : Nat) :
    releasedAt (.operator op :: ts) (k + 1) 0 =
      if wait op.precedence 0 ts = k then some (.apply op) else none := by
  simp only [releasedAt, List.getElem?_cons_zero, releasePoint, List.drop_succ_cons, List.drop_zero]
  congr 1
  simp only [eq_iff_iff]
  omega

/-- The token at offset `n` after an operator of precedence `p` stands in the operator's
own group, with `depth` groups more to be closed before, and ends the group or binds no
tighter. -/
def Releases (p depth : Nat) (ts : List Token) (n : Nat) : Prop :=
  openAfter depth (ts.take n) = some 0 ∧
    (ts[n]? = some .rightParen ∨ ∃ op, ts[n]? = some (.operator op) ∧ op.precedence ≤ p)

theorem releases_zero (p depth : Nat) (t : Token) (ts : List Token) :
    Releases p depth (t :: ts) 0 ↔
      depth = 0 ∧ (t = .rightParen ∨ ∃ op, t = .operator op ∧ op.precedence ≤ p) := by
  simp [Releases, openAfter]

/-- `wait` counts up to the first offset that releases the operator, or else to the end. -/
def WaitIsLeast (p depth : Nat) (ts : List Token) : Prop :=
  (wait p depth ts = ts.length ∨ Releases p depth ts (wait p depth ts)) ∧
    ∀ n < wait p depth ts, ¬Releases p depth ts n

theorem WaitIsLeast.cons {p depth depth' : Nat} (h : WaitIsLeast p depth' ts)
    (hw : wait p depth (t :: ts) = wait p depth' ts + 1)
    (ho : ∀ ts, openAfter depth (t :: ts) = openAfter depth' ts)
    (hz : ¬Releases p depth (t :: ts) 0) : WaitIsLeast p depth (t :: ts) := by
  have hs : ∀ n, Releases p depth (t :: ts) (n + 1) ↔ Releases p depth' ts n := by
    intro n
    simp only [Releases, List.take_succ_cons, ho, List.getElem?_cons_succ]
  refine ⟨?_, ?_⟩
  · rw [hw, hs, List.length_cons, Nat.add_right_cancel_iff]
    exact h.1
  · intro n hn
    cases n with
    | zero => exact hz
    | succ n =>
      rw [hs]
      exact h.2 n (by omega)

theorem waitIsLeast (p depth : Nat) (ts : List Token) : WaitIsLeast p depth ts := by
  induction ts generalizing depth with
  | nil => simp [WaitIsLeast, wait]
  | cons t ts ih =>
    cases t with
    | number value => exact (ih depth).cons rfl (fun _ => rfl) (by simp [releases_zero])
    | leftParen => exact (ih (depth + 1)).cons rfl (fun _ => rfl) (by simp [releases_zero])
    | rightParen =>
      by_cases hd : depth = 0
      · simp [WaitIsLeast, wait, hd, releases_zero]
      · exact (ih (depth - 1)).cons (by simp [wait, hd]) (by simp [openAfter, hd])
          (by simp [releases_zero, hd])
    | operator op =>
      by_cases hop : depth = 0 ∧ op.precedence ≤ p
      · simp [WaitIsLeast, wait, hop, releases_zero]
      · exact (ih depth).cons (by rw [wait, if_neg hop]) (fun _ => rfl)
          (by simpa [releases_zero] using hop)

/-- The release point of the operator at `i` is the first later position that releases
it, or else the end of the tokens. -/
theorem releasePoint_least {i : Nat} {op : Operator} (h : ts[i]? = some (.operator op)) :
    let k := releasePoint ts i op
    i < k ∧ (k = ts.length ∨ Releases op.precedence 0 (ts.drop (i + 1)) (k - (i + 1))) ∧
      ∀ n, i < n → n < k → ¬Releases op.precedence 0 (ts.drop (i + 1)) (n - (i + 1)) := by
  have hi : i < ts.length := (List.getElem?_eq_some_iff.1 h).1
  obtain ⟨hend, hleast⟩ := waitIsLeast op.precedence 0 (ts.drop (i + 1))
  rw [List.length_drop] at hend
  simp only [releasePoint, Nat.add_sub_cancel_left]
  refine ⟨by omega, hend.imp_left fun hw => by omega, fun n hin hn => hleast _ (by omega)⟩

/-- The operators that already wait when `ts` begins and are released at its position
`k`, the latest first, below `depth` more open parentheses. -/
def due (ts : List Token) (k : Nat) : Nat → List Pending → List Instruction
  | _, [] => []
  | depth, .leftParen :: pending => due ts k (depth + 1) pending
  | depth, .operator op :: pending =>
    (if wait op.precedence depth ts = k then [.apply op] else []) ++ due ts k depth pending

/-- A token that nothing waits for, at the depths from `depth` on, only brings the
release points nearer. -/
theorem due_of_wait (depth depth' : Nat)
    (h : ∀ p j, wait p (depth + j) (t :: ts) = wait p (depth' + j) ts + 1)
    (pending : List Pending) :
    due (t :: ts) 0 depth pending = [] ∧
      ∀ k, due (t :: ts) (k + 1) depth pending = due ts k depth' pending := by
  induction pending generalizing depth depth' with
  | nil => exact ⟨rfl, fun _ => rfl⟩
  | cons entry pending ih =>
    cases entry with
    | leftParen =>
      have hs : ∀ p j, wait p (depth + 1 + j) (t :: ts) = wait p (depth' + 1 + j) ts + 1 := by
        intro p j
        rw [Nat.add_assoc, Nat.add_assoc]
        exact h p (1 + j)
      exact ih _ _ hs
    | operator op =>
      have hop : wait op.precedence depth (t :: ts) = wait op.precedence depth' ts + 1 :=
        h op.precedence 0
      obtain ⟨hzero, hsucc⟩ := ih _ _ h
      simp [due, hop, hzero, hsucc]

theorem due_rightParen (ts : List Token) (pending : List Pending) :
    due (.rightParen :: ts) 0 0 pending = (released (fun _ => true) pending).map .apply ∧
      ∀ k, due (.rightParen :: ts) (k + 1) 0 pending =
        due ts k 0 (kept (fun _ => true) pending).tail := by
  induction pending with
  | nil => exact ⟨rfl, fun _ => rfl⟩
  | cons entry pending ih =>
    cases entry with
    | leftParen =>
      -- Below this parenthesis nothing is released, and one open parenthesis is gone.
      refine due_of_wait 1 0 (fun p j => ?_) pending
      have hj : 1 + j ≠ 0 := by omega
      rw [wait, if_neg hj, Nat.add_sub_cancel_left, Nat.zero_add]
    | operator op => simp [due, wait, released_operator, kept_operator, ih]

theorem due_operator (op : Operator) (ts : List Token) (h : Ascending pending) :
    due (.operator op :: ts) 0 0 pending =
        (released (op.precedence ≤ ·.precedence) pending).map .apply ∧
      ∀ k, due (.operator op :: ts) (k + 1) 0 pending =
        due ts k 0 (kept (op.precedence ≤ ·.precedence) pending) := by
  induction pending with
  | nil => exact ⟨rfl, fun _ => rfl⟩
  | cons entry pending ih =>
    have hrest := h.suffix (List.suffix_cons entry pending)
    cases entry with
    | leftParen =>
      refine due_of_wait 1 1 (fun p j => ?_) pending
      have hj : ¬(1 + j = 0 ∧ op.precedence ≤ p) := by omega
      rw [wait, if_neg hj]
    | operator top =>
      obtain ⟨hzero, hsucc⟩ := ih hrest
      by_cases htop : op.precedence ≤ top.precedence
      · simp [due, wait, released_operator, kept_operator, htop, hzero, hsucc]
      · -- The operators below bind even less tightly, so that they wait as well.
        have hstop : Stops (op.precedence ≤ ·.precedence) pending := h.stops (by omega)
        rw [hstop.released_eq_nil] at hzero
        simp only [hstop.kept_eq_self] at hsucc
        simp [due, wait, released_operator, kept_operator, htop, hzero, hsucc]

theorem due_number (value : Int) (ts : List Token) (pending : List Pending) :
    due (.number value :: ts) 0 0 pending = [] ∧
      ∀ k, due (.number value :: ts) (k + 1) 0 pending = due ts k 0 pending :=
  due_of_wait 0 0 (fun _ _ => rfl) pending

theorem due_leftParen (ts : List Token) (pending : List Pending) :
    due (.leftParen :: ts) 0 0 pending = [] ∧
      ∀ k, due (.leftParen :: ts) (k + 1) 0 pending = due ts k 0 (.leftParen :: pending) :=
  due_of_wait 0 1 (fun p j => by rw [wait, Nat.zero_add, Nat.add_comm 1]) pending

theorem due_zero (h : Ascending pending) (t : Token) (ts : List Token) :
    due (t :: ts) 0 0 pending ++ numberAt (t :: ts) 0 = emit pending t := by
  cases t with
  | number value => rw [(due_number value ts pending).1]; rfl
  | leftParen => rw [(due_leftParen ts pending).1]; rfl
  | rightParen => rw [(due_rightParen ts pending).1]; simp [numberAt, emit]
  | operator op => rw [(due_operator op ts h).1]; simp [numberAt, emit]

theorem due_succ (h : Ascending pending) (ht : advance pending t = some next) (ts : List Token)
    (k : Nat) :
    (releasedAt (t :: ts) (k + 1) 0).toList ++ due (t :: ts) (k + 1) 0 pending =
      due ts k 0 next := by
  cases t with
  | number value =>
    rw [(due_number value ts pending).2, ← Option.some_inj.1 ht]
    rfl
  | leftParen =>
    rw [(due_leftParen ts pending).2, ← Option.some_inj.1 ht]
    rfl
  | rightParen =>
    rw [(due_rightParen ts pending).2]
    simp only [advance] at ht
    split at ht
    · rename_i rest hrest
      rw [hrest, ← Option.some_inj.1 ht]
      rfl
    · contradiction
  | operator op =>
    rw [(due_operator op ts h).2, ← Option.some_inj.1 ht, releasedAt_zero, due]
    split <;> rfl

/-! ### The two translations -/

/-- What `ts` brings about by position when `pending` already waits. -/
def ofTokensAfter (pending : List Pending) (ts : List Token) : List Instruction :=
  (List.range (ts.length + 1)).flatMap fun k =>
    (List.range k).reverse.filterMap (releasedAt ts k) ++ due ts k 0 pending ++ numberAt ts k

theorem ofTokensAfter_nil_left (ts : List Token) : ofTokensAfter [] ts = ofTokens ts := by
  simp [ofTokensAfter, ofTokens, due]

theorem ofTokensAfter_nil_right (h : kept (fun _ => true) pending = []) :
    ofTokensAfter pending [] = emitRest pending := by
  have hdue : due [] 0 0 pending = (released (fun _ => true) pending).map .apply := by
    induction pending with
    | nil => rfl
    | cons entry pending ih =>
      cases entry with
      | leftParen => simp at h
      | operator op =>
        rw [kept_operator, if_pos rfl] at h
        simp [due, wait, released_operator, ih h]
  simp [ofTokensAfter, emitRest, hdue, numberAt]

theorem filterMap_releasedAt_cons (t : Token) (ts : List Token) (k : Nat) :
    (List.range (k + 1)).reverse.filterMap (releasedAt (t :: ts) (k + 1)) =
      (List.range k).reverse.filterMap (releasedAt ts k) ++
        (releasedAt (t :: ts) (k + 1) 0).toList := by
  have hcomp : releasedAt (t :: ts) (k + 1) ∘ Nat.succ = releasedAt ts k :=
    funext fun i => releasedAt_succ t ts k i
  rw [List.range_succ_eq_map, List.reverse_cons, ← List.map_reverse, List.filterMap_append,
    List.filterMap_map, hcomp]
  rfl

theorem ofTokensAfter_cons (h : Ascending pending) (ht : advance pending t = some next)
    (ts : List Token) :
    ofTokensAfter pending (t :: ts) = emit pending t ++ ofTokensAfter next ts := by
  have hfirst : (List.range 0).reverse.filterMap (releasedAt (t :: ts) 0) ++
      due (t :: ts) 0 0 pending ++ numberAt (t :: ts) 0 = emit pending t := due_zero h t ts
  have hlater : ∀ k, (List.range (k + 1)).reverse.filterMap (releasedAt (t :: ts) (k + 1)) ++
      due (t :: ts) (k + 1) 0 pending ++ numberAt (t :: ts) (k + 1) =
        (List.range k).reverse.filterMap (releasedAt ts k) ++ due ts k 0 next ++ numberAt ts k := by
    intro k
    rw [filterMap_releasedAt_cons, numberAt_succ, List.append_assoc _ (Option.toList _),
      due_succ h ht]
  unfold ofTokensAfter
  rw [List.length_cons, List.range_succ_eq_map, List.flatMap_cons, hfirst, List.flatMap_map]
  simp only [Nat.succ_eq_add_one, hlater]

/-- Both translations release the same operators in the same order. -/
theorem emitAll_append_emitRest {last : List Pending} (h : Ascending pending)
    (ha : advanceAll pending ts = some last) (hl : kept (fun _ => true) last = []) :
    emitAll pending ts ++ emitRest last = ofTokensAfter pending ts := by
  induction ts generalizing pending with
  | nil =>
    rw [advanceAll_nil, Option.some_inj] at ha
    rw [ha, ofTokensAfter_nil_right hl]
    rfl
  | cons t ts ih =>
    obtain ⟨next, ht, hrest⟩ := advanceAll_cons_eq_some.1 ha
    rw [emitAll_cons ht, List.append_assoc, ih (h.advance ht) hrest, ofTokensAfter_cons h ht]

/-- The tokens evaluate to what their reverse Polish form leaves, with the same fault. -/
theorem evaluate_eq_run_ofTokens (h : Balanced ts) : evaluate ts = run (ofTokens ts) := by
  obtain ⟨last, ha, hl⟩ := balanced_iff.1 h
  rw [evaluate_eq_run ha hl, emitAll_append_emitRest List.isChain_nil ha hl,
    ofTokensAfter_nil_left]

/-- `1 2 (+) * (-3)` is no infix expression. -/
theorem evaluate_grouped_operator :
    let ts : List Token := [.number 1, .number 2, .leftParen, .operator .add, .rightParen,
      .operator .mul, .leftParen, .number (-3), .rightParen]
    Balanced ts ∧ evaluate ts = run (ofTokens ts) ∧
      ofTokens ts = [.push 1, .push 2, .apply .add, .push (-3), .apply .mul] :=
  ⟨by decide, evaluate_eq_run_ofTokens (by decide), by decide⟩

end ReversePolish

end IntegerCalc
