import FormulaScript.Proofs.Requests
import FormulaScript.Proofs.Script.Assignments
import FormulaScript.Proofs.Script.Load

/-!
# `if` as a statement and as an expression

An `if` whose blocks assign to one variable does the same as an assignment of the conditional
expression to that variable. The condition of the statement is stored as a test that yields 1 or 0,
and its truth is asked twice: of the value of the condition, and of the value of the test. As long
as 1 counts as true, both answers agree.
-/

namespace FormulaScript

/-! ## Truth of a test -/

namespace Number

variable {tolerance : Int}

theorem isTrue_iff (value : Float) :
    isTrue tolerance value ↔ tolerance < (orderedBits value).natAbs := by
  have hz : orderedBits 0.0 = 0 := by decide +kernel
  simp [isTrue, isEqual, hz]

/-- Where 1 counts as true, the number of a truth value that was found counts as that value. -/
theorem isTrue_ofBool (ht : tolerance < orderedBits 1.0) (value : Float) :
    isTrue tolerance (ofBool (isTrue tolerance value)) = isTrue tolerance value := by
  by_cases hv : isTrue tolerance value
  · have h1 : isTrue tolerance 1.0 := (isTrue_iff 1.0).2 (by omega)
    rw [hv, ofBool, if_pos rfl, h1]
  · -- only a tolerance of at least zero takes a value for false
    have hz : orderedBits 0.0 = 0 := by decide +kernel
    have h0 : ¬ isTrue tolerance 0.0 := by
      rw [isTrue_iff] at hv ⊢
      omega
    rw [Bool.eq_false_iff.2 hv, ofBool, if_neg (by simp), Bool.eq_false_iff.2 h0]

/-- At this tolerance 1 does not count as true. -/
example : isTrue (orderedBits 1.0) 1.0 = false := by decide +kernel

end Number

namespace Program

/-- A test that yields 1 or 0 holds if its condition is true. -/
theorem holds_conditional (ht : tolerance < Number.orderedBits 1.0) (condition : Expr)
    (l l₁ l₀ : Location) :
    holds tolerance (.conditional condition (.literal 1.0 l₁) (.literal 0.0 l₀) l) =
      (do return Number.isTrue tolerance (← condition.evaluate tolerance)) := by
  rw [holds, Expr.evaluate, bind_assoc]
  refine bind_congr fun value => ?_
  have h := Number.isTrue_ofBool ht value
  cases hv : Number.isTrue tolerance value with
  | true =>
    rw [hv] at h
    rw [if_pos rfl, Expr.evaluate, pure_bind]
    exact congrArg pure h
  | false =>
    rw [hv] at h
    rw [if_neg Bool.false_ne_true, Expr.evaluate, pure_bind]
    exact congrArg pure h

/-- A branch whose test and assignments are made from a condition and two values does the same as
the assignment of the conditional expression of the three. -/
theorem run_branch_eq {settings : Settings}
    {test assign₁ assign₂ assign target condition e₁ e₂ : Expr}
    (hu : settings.tolerance < Number.orderedBits 1.0)
    (ht : test.unplaced = .conditional condition (.literal 1.0 {}) (.literal 0.0 {}) {})
    (h₁ : assign₁.unplaced = .assign target e₁ {}) (h₂ : assign₂.unplaced = .assign target e₂ {})
    (h : assign.unplaced = .assign target (.conditional condition e₁ e₂ {}) {}) :
    (branch test (equation assign₁ line₁ nil) (equation assign₂ line₂ nil) line nil).run settings =
      (equation assign line' nil).run settings := by
  have hholds : holds settings.tolerance test =
      (do return Number.isTrue settings.tolerance (← condition.evaluate settings.tolerance)) := by
    rw [← holds_conditional hu condition {} {} {}, ← ht, holds, holds, Expr.evaluate_unplaced]
  simp only [run]
  rw [hholds, ← Expr.evaluate_unplaced _ assign₁, ← Expr.evaluate_unplaced _ assign₂,
    ← Expr.evaluate_unplaced _ assign, h₁, h₂, h]
  simp only [Expr.evaluate, bind_assoc, pure_bind]
  refine bind_congr fun value => ?_
  split
  · simp
  · simp

end Program

namespace Script

variable {x c e₁ e₂ : List Char}

/-! ## Scripts -/

/-- A script in which a block is laid is parsed to the program of the block, at other places. -/
theorem exists_moved_of_laid {block : Block} {text : String}
    (hs : block.Suits (.ofNames names (some names.length))) (hl : Laid block.pieces text.toList) :
    ∃ program tree, parse text names = ⟨program, .ofNames names (some names.length), []⟩ ∧
      block.program (.ofNames names (some names.length)) = some tree ∧ program.Moved tree := by
  obtain ⟨tree, ht, hd⟩ := (Block.cut_units hs hl).exists_moved hs
  obtain ⟨program, hf, hm⟩ := hd true 1
  exact ⟨program, tree, parse_eq_of_forms hf, ht, hm⟩

/-- An `if` statement that assigns to a variable in each of its blocks. -/
def branchText (x c e₁ e₂ : String) : String :=
  "if (" ++ c ++ ") \x7b " ++ x ++ " = (" ++ e₁ ++ "); \x7d else \x7b " ++ x ++ " = (" ++ e₂ ++
    "); \x7d"

/-- A statement that assigns a conditional expression to a variable. -/
def conditionalText (x c e₁ e₂ : String) : String :=
  x ++ " = if(" ++ c ++ ", " ++ e₁ ++ ", " ++ e₂ ++ ");"

/-- The block of the `if` statement. -/
def branchBlock (x c e₁ e₂ : List Char) : Block :=
  .branch c (.equation (assignment x (grouped e₁)) .done)
    (.otherwise (.equation (assignment x (grouped e₂)) .done)) .done

theorem laid_branch (x c e₁ e₂ : String) :
    Laid (branchBlock x.toList c.toList e₁.toList e₂.toList).pieces
      (branchText x c e₁ e₂).toList := by
  have space : Gap [' '] := .blank (by decide) .nil
  have hl : Laid (branchBlock x.toList c.toList e₁.toList e₂.toList).pieces _ :=
    .cons .nil <| .cons space <| .cons space <| .cons space <| .cons space <| .cons space <|
      .cons space <| .cons space <| .cons space <| .nil .nil
  delta branchText
  simpa [Piece.text, assignment, grouped, openingBrace, closingBrace] using hl

theorem laid_conditional (x c e₁ e₂ : String) :
    Laid (Block.equation (assignment x.toList (conditional c.toList e₁.toList e₂.toList))
      .done).pieces (conditionalText x c e₁ e₂).toList := by
  have hl : Laid (Block.equation (assignment x.toList (conditional c.toList e₁.toList e₂.toList))
      .done).pieces _ := .cons .nil (.nil .nil)
  delta conditionalText
  simpa [Piece.text, assignment, conditional] using hl

section

variable {vars : Variables} {target condition value₁ value₂ : Expr}
  (hx : PlainForms vars.names x target) (hv : target.isVariable)
  (hc : PlainForms vars.names c condition) (h₁ : PlainForms vars.names e₁ value₁)
  (h₂ : PlainForms vars.names e₂ value₂)

include hx hv hc h₁ h₂

/-- The program of the `if` statement. -/
theorem exists_branch :
    (branchBlock x c e₁ e₂).Suits vars ∧ ∃ test assign₁ assign₂,
      (branchBlock x c e₁ e₂).program vars = some
        (.branch test (.equation assign₁ 0 .nil) (.equation assign₂ 0 .nil) 0 .nil) ∧
      test.unplaced = .conditional condition.unplaced (.literal 1.0 {}) (.literal 0.0 {}) {} ∧
      assign₁.unplaced = .assign target.unplaced value₁.unplaced {} ∧
      assign₂.unplaced = .assign target.unplaced value₂.unplaced {} := by
  obtain ⟨test, ht, htu⟩ := hc.exists_test
  obtain ⟨assign₁, ha₁, hu₁⟩ := hx.exists_grouped hv h₁
  obtain ⟨assign₂, ha₂, hu₂⟩ := hx.exists_grouped hv h₂
  refine ⟨⟨hc.suits, hx.suits_assignment hv ha₁, hx.suits_assignment hv ha₂, trivial⟩,
    test, assign₁, assign₂, ?_, htu, hu₁, hu₂⟩
  simp [branchBlock, Block.program, Tail.program, ht.parse_eq, ha₁.parse_eq, ha₂.parse_eq]

/-- The program of the assignment. -/
theorem exists_equation :
    (Block.equation (assignment x (conditional c e₁ e₂)) .done).Suits vars ∧ ∃ assign,
      (Block.equation (assignment x (conditional c e₁ e₂)) .done).program vars =
        some (.equation assign 0 .nil) ∧
      assign.Safe vars.names.length ∧
      assign.unplaced = .assign target.unplaced
        (.conditional condition.unplaced value₁.unplaced value₂.unplaced {}) {} := by
  obtain ⟨assign, ha, hu⟩ := hx.exists_conditional hv hc h₁ h₂
  refine ⟨hx.suits_assignment hv ha, assign, ?_, ha.derives.safe, hu⟩
  simp [Block.program, ha.parse_eq]

end

/-- An `if` statement that assigns to one variable in both of its blocks does the same as the
assignment of the conditional expression, whatever the values and whatever the condition and the
values print, draw or assign. -/
theorem branch_eq_conditional {names : List String} {x c e₁ e₂ : String} {settings : Settings}
    (hx : Suits (.ofNames names (some names.length)) x.toList)
    (hv : (Expr.parse x.toList (.ofNames names (some names.length)) false).expr.any
      Expr.isVariable)
    (hc : Suits (.ofNames names (some names.length)) c.toList)
    (h₁ : Suits (.ofNames names (some names.length)) e₁.toList)
    (h₂ : Suits (.ofNames names (some names.length)) e₂.toList)
    (hu : settings.tolerance < Number.orderedBits 1.0) :
    let branch := parse (branchText x c e₁ e₂) names
    let conditional := parse (conditionalText x c e₁ e₂) names
    branch.isClean ∧ conditional.isClean ∧ branch.vars = conditional.vars ∧
      ∀ given (vars : Variables) shared, vars.values.length = branch.vars.values.length →
        { branch with vars }.evaluate settings given shared =
            { conditional with vars }.evaluate settings given shared ∧
          ({ branch with vars }.evaluate settings given shared).result = .ok () := by
  intro branch conditional
  obtain ⟨target, hpx, hx⟩ := hx.exists_plainForms
  obtain ⟨condition, -, hc⟩ := hc.exists_plainForms
  obtain ⟨value₁, -, h₁⟩ := h₁.exists_plainForms
  obtain ⟨value₂, -, h₂⟩ := h₂.exists_plainForms
  have hv : target.isVariable := by simpa [hpx] using hv
  obtain ⟨hs, test, assign₁, assign₂, hp, ht, hu₁, hu₂⟩ := exists_branch hx hv hc h₁ h₂
  obtain ⟨hs', assign, hp', hsafe, hu'⟩ := exists_equation hx hv hc h₁ h₂
  obtain ⟨p, tree, hparse, htree, hm⟩ := exists_moved_of_laid hs (laid_branch x c e₁ e₂)
  obtain ⟨q, tree', hparse', htree', hm'⟩ := exists_moved_of_laid hs' (laid_conditional x c e₁ e₂)
  cases hp.symm.trans htree
  cases hp'.symm.trans htree'
  have hrun : p.run settings = q.run settings := by
    rw [hm.run_eq, hm'.run_eq]
    exact Program.run_branch_eq hu ht hu₁ hu₂ hu'
  have hbranch : branch = ⟨p, .ofNames names (some names.length), []⟩ := hparse
  have hconditional : conditional = ⟨q, .ofNames names (some names.length), []⟩ := hparse'
  rw [hbranch, hconditional]
  refine ⟨rfl, rfl, rfl, fun given vars shared hl => ⟨?_, ?_⟩⟩
  · unfold evaluate
    rw [hrun]
  · have hl : vars.values.length = (Variables.ofNames names (some names.length)).names.length :=
      hl.trans (Variables.length_values_ofNames ..)
    have hk : Evaluation.Keeps vars.values.length (fun _ => False) (p.run settings) := by
      rw [hrun, hm'.run_eq, Program.run, hl]
      exact (hsafe.keeps_evaluate _).bind fun _ => Evaluation.keeps_pure ()
    obtain ⟨-, ⟨⟨⟩, hok⟩ | ⟨-, -, hfalse⟩⟩ := hk.runOn given shared
    · exact hok
    · exact hfalse.elim

/-- The condition adds to the variable that is assigned to, and draws a random number. -/
theorem branch_eq_conditional_draw :
    let branch := parse (branchText "x" "++x > urand(0,3)" "x-1" "print(x)") ["x", "y"]
    let conditional := parse (conditionalText "x" "++x > urand(0,3)" "x-1" "print(x)") ["x", "y"]
    branch.isClean ∧ conditional.isClean ∧ branch.vars = conditional.vars ∧
      ∀ given (vars : Variables) shared, vars.values.length = branch.vars.values.length →
        { branch with vars }.evaluate {} given shared =
            { conditional with vars }.evaluate {} given shared ∧
          ({ branch with vars }.evaluate {} given shared).result = .ok () :=
  branch_eq_conditional (by decide +kernel) (by decide +kernel) (by decide +kernel)
    (by decide +kernel) (by decide +kernel) (by decide +kernel)

end Script

end FormulaScript
