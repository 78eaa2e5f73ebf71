import FormulaScript.Program
import FormulaScript.Proofs.Expr.Places

/-!
# Programs at other places

Programs that differ only in the lines of their statements and the locations of their expressions
do the same.
-/

namespace FormulaScript.Program

/-- The programs are the same but for lines and locations. -/
inductive Moved : Program → Program → Prop
  | nil : Moved .nil .nil
  | equation : Expr.Moved e' e → Moved rest' rest →
      Moved (.equation e' line' rest') (.equation e line rest)
  | branch : Expr.Moved test' test → Moved yes' yes → Moved no' no → Moved rest' rest →
      Moved (.branch test' yes' no' line' rest') (.branch test yes no line rest)
  | loop : Expr.Moved test' test → Moved body' body → Moved rest' rest →
      Moved (.loop test' body' line' rest') (.loop test body line rest)

variable {p q : Program}

theorem Moved.same (h : p.Moved q) : p.same q := by
  induction h with
  | nil => rfl
  | equation he _ ih => simp [Program.same, he.same, ih]
  | branch ht _ _ _ ihy ihn ihr => simp [Program.same, ht.same, ihy, ihn, ihr]
  | loop ht _ _ ihb ihr => simp [Program.same, ht.same, ihb, ihr]

theorem holds_eq_of_moved (h : Expr.Moved test' test) (tolerance : Int) :
    holds tolerance test' = holds tolerance test := by
  rw [holds, holds, h.evaluate_eq]

theorem Moved.run_eq (h : p.Moved q) (settings : Settings) : p.run settings = q.run settings := by
  induction h with
  | nil => rfl
  | equation he _ ih => rw [run, run, he.evaluate_eq, ih]
  | branch ht _ _ _ ihy ihn ihr => rw [run, run, holds_eq_of_moved ht, ihy, ihn, ihr]
  | loop ht _ _ ihb ihr => rw [run, run, holds_eq_of_moved ht, ihb, ihr]

end FormulaScript.Program
