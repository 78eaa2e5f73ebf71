import FormulaScript.Proofs.Script.Assembly
import FormulaScript.Proofs.Text.Blank
import FormulaScript.Script
import Mathlib.Data.List.Infix

/-!
# Written scripts

A tree of statements, the pieces that it is written with, and the texts in which these pieces stand
one after another, with blanks and comments between them.
-/

namespace FormulaScript.Script

open Text

/-! ## Trees -/

mutual

/-- The statements of a block, with the texts of their expressions and conditions. -/
inductive Block
  | done
  | equation (text : List Char) (rest : Block)
  | branch (condition : List Char) (yes : Block) (tail : Tail) (rest : Block)
  | loop (condition : List Char) (body : Block) (rest : Block)

/-- What follows the first block of an `if`. -/
inductive Tail
  | nothing
  | otherwise (block : Block)
  /-- An `else` block that is a single `if`, written as `else if`. -/
  | elseIf (condition : List Char) (yes : Block) (tail : Tail)

end

mutual

/-- The program of a block over some variables, if each of its texts is an expression. -/
def Block.program (vars : Variables) : Block → Option Program
  | .done => some .nil
  | .equation text rest => do
    let e ← (Expr.parse text vars false).expr
    return .equation e 0 (← rest.program vars)
  | .branch condition yes tail rest => do
    let test ← (Expr.parse (wrapped condition) vars false).expr
    return .branch test (← yes.program vars) (← tail.program vars) 0 (← rest.program vars)
  | .loop condition body rest => do
    let test ← (Expr.parse (wrapped condition) vars false).expr
    return .loop test (← body.program vars) 0 (← rest.program vars)

def Tail.program (vars : Variables) : Tail → Option Program
  | .nothing => some .nil
  | .otherwise block => block.program vars
  | .elseIf condition yes tail => do
    let test ← (Expr.parse (wrapped condition) vars false).expr
    return .branch test (← yes.program vars) (← tail.program vars) 0 .nil

end

/-! ## Pieces -/

/-- What a script is written with. -/
inductive Piece
  | statement (text : List Char)
  | keyword (word : String)
  | condition (text : List Char)
  | opening
  | closing

def Piece.text : Piece → List Char
  | statement text => text ++ [';']
  | keyword word => word.toList
  | condition text => '(' :: text ++ [')']
  | opening => openingBrace
  | closing => closingBrace

mutual

def Block.pieces : Block → List Piece
  | .done => []
  | .equation text rest => .statement text :: rest.pieces
  | .branch condition yes tail rest =>
    .keyword "if" :: .condition condition :: .opening :: yes.pieces ++
      .closing :: tail.pieces ++ rest.pieces
  | .loop condition body rest =>
    .keyword "while" :: .condition condition :: .opening :: body.pieces ++ .closing :: rest.pieces

def Tail.pieces : Tail → List Piece
  | .nothing => []
  | .otherwise block => .keyword "else" :: .opening :: block.pieces ++ [.closing]
  | .elseIf condition yes tail =>
    .keyword "else if" :: .condition condition :: .opening :: yes.pieces ++ .closing :: tail.pieces

end

/-! ## Texts -/

/-- Blanks, line feeds and complete comments. -/
inductive Gap : List Char → Prop
  | nil : Gap []
  | blank : isBlank c → Gap rest → Gap (c :: rest)
  | block : ¬ ['*', '/'] <:+: body → Gap rest → Gap ('/' :: '*' :: body ++ '*' :: '/' :: rest)
  | line : '\n' ∉ body → Gap rest → Gap ('/' :: '/' :: body ++ '\n' :: rest)
  | hash : '\n' ∉ body → Gap rest → Gap ('#' :: body ++ '\n' :: rest)

/-- The text holds the pieces in order, with a gap before each and after the last. -/
inductive Laid : List Piece → List Char → Prop
  | nil : Gap gap → Laid [] gap
  | cons : Gap gap → Laid pieces text → Laid (piece :: pieces) (gap ++ piece.text ++ text)

/-- The text has no blank other than space and tab, no character that structures a script, no NUL,
and no comment. -/
structure Plain (text : List Char) : Prop where
  blanks : ∀ c ∈ text, isBlank c → c = ' ' ∨ c = '\t'
  symbols : ∀ c ∈ text, c ∉ ['"', '{', '}', ';', '#', '\x00']
  comments : ¬ ['/', '/'] <:+: text ∧ ¬ ['/', '*'] <:+: text

/-- The text starts with a keyword, blanks and an opening parenthesis. -/
def Opens (keyword : String) (text : List Char) : Prop :=
  ∃ blanks rest, (∀ c ∈ blanks, isBlank c) ∧ text = keyword.toList ++ blanks ++ '(' :: rest

/-- The text is plain, and an expression over the variables. -/
structure Suits (vars : Variables) (text : List Char) : Prop where
  plain : Plain text
  clean : (Expr.parse text vars false).diagnostics = []

instance (text : List Char) : Decidable (Plain text) :=
  decidable_of_iff (text.all (fun c => isBlank c → c = ' ' ∨ c = '\t') ∧
      text.all (fun c => c ∉ ['"', '{', '}', ';', '#', '\x00']) ∧
      ¬ ['/', '/'] <:+: text ∧ ¬ ['/', '*'] <:+: text) <| by
    simp only [List.all_eq_true, decide_eq_true_eq]
    exact ⟨fun ⟨hb, hs, hc⟩ => ⟨hb, hs, hc⟩, fun h => ⟨h.blanks, h.symbols, h.comments⟩⟩

theorem drop_word (word : String) (more : List Char) :
    (word.toList ++ more).drop word.length = more := by
  rw [← String.length_toList, List.drop_left]

theorem opens_iff : Opens keyword text ↔ keyword.toList.isPrefixOf text ∧
    (trimLeft (text.drop keyword.length)).head? = some '(' := by
  refine ⟨?_, fun ⟨hp, hh⟩ => ?_⟩
  · rintro ⟨blanks, rest, hb, rfl⟩
    rw [List.append_assoc, drop_word, trimLeft_append_of_blank hb, trimLeft_cons (by decide)]
    exact ⟨List.isPrefixOf_iff_prefix.2 (List.prefix_append _ _), rfl⟩
  · obtain ⟨more, rfl⟩ := List.isPrefixOf_iff_prefix.1 hp
    rw [drop_word] at hh
    obtain ⟨blanks, hb, ht⟩ := exists_trimLeft more
    obtain ⟨rest, hr⟩ := List.head?_eq_some_iff.1 hh
    exact ⟨blanks, rest, hb, by rw [List.append_assoc, ← hr, ← ht]⟩

instance (keyword : String) (text : List Char) : Decidable (Opens keyword text) :=
  decidable_of_iff _ opens_iff.symm

instance (vars : Variables) (text : List Char) : Decidable (Suits vars text) :=
  decidable_of_iff (Plain text ∧ (Expr.parse text vars false).diagnostics.isEmpty)
    ⟨fun ⟨hp, hc⟩ => ⟨hp, List.isEmpty_iff.1 hc⟩, fun h => ⟨h.plain, List.isEmpty_iff.2 h.clean⟩⟩

mutual

/-- The texts of the block are plain expressions over the variables. No statement of it starts,
after its leading blanks, like an `if` or a `while`. -/
def Block.Suits (vars : Variables) : Block → Prop
  | .done => True
  | .equation text rest =>
    Script.Suits vars text ∧ ¬ Opens "if" (trimLeft text) ∧ ¬ Opens "while" (trimLeft text) ∧
      rest.Suits vars
  | .branch condition yes tail rest =>
    Script.Suits vars condition ∧ yes.Suits vars ∧ tail.Suits vars ∧ rest.Suits vars
  | .loop condition body rest => Script.Suits vars condition ∧ body.Suits vars ∧ rest.Suits vars

def Tail.Suits (vars : Variables) : Tail → Prop
  | .nothing => True
  | .otherwise block => block.Suits vars
  | .elseIf condition yes tail => Script.Suits vars condition ∧ yes.Suits vars ∧ tail.Suits vars

end

mutual

def Block.decideSuits (vars : Variables) : (block : Block) → Decidable (block.Suits vars)
  | .done => .isTrue trivial
  | .equation _ rest =>
    have := rest.decideSuits vars
    inferInstanceAs (Decidable (_ ∧ _ ∧ _ ∧ _))
  | .branch _ yes tail rest =>
    have := yes.decideSuits vars
    have := tail.decideSuits vars
    have := rest.decideSuits vars
    inferInstanceAs (Decidable (_ ∧ _ ∧ _ ∧ _))
  | .loop _ body rest =>
    have := body.decideSuits vars
    have := rest.decideSuits vars
    inferInstanceAs (Decidable (_ ∧ _ ∧ _))

def Tail.decideSuits (vars : Variables) : (tail : Tail) → Decidable (tail.Suits vars)
  | .nothing => .isTrue trivial
  | .otherwise block => block.decideSuits vars
  | .elseIf _ yes tail =>
    have := yes.decideSuits vars
    have := tail.decideSuits vars
    inferInstanceAs (Decidable (_ ∧ _ ∧ _))

end

instance (vars : Variables) (block : Block) : Decidable (block.Suits vars) :=
  block.decideSuits vars

end FormulaScript.Script
