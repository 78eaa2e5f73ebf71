import FormulaScript.Proofs.Expr.Faults
import FormulaScript.Proofs.Expr.Places
import FormulaScript.Proofs.Token.Spacing

/-!
# Blanks in expressions

Texts with the same lexemes are parsed to the same expression, or the same is reported of them. So
what blanks stand between the tokens of an expression makes no difference but to its places.
-/

namespace FormulaScript.Expr

open Token (Spaced InString scan shape)

variable {text text' : List Char}

/-- Texts with the same lexemes are parsed to the same expression at other places, or to none. -/
theorem moved_of_lexemes (hn : '\x00' ∉ text) (hn' : '\x00' ∉ text')
    (hl : Token.lexemes text' = Token.lexemes text) (vars : Variables) (autoAdd : Bool) :
    Option.Rel Moved (parse text' vars autoAdd).expr (parse text vars autoAdd).expr := by
  obtain ⟨hfaults, hvars⟩ := faults_of_lexemes hn hn' hl vars autoAdd
  have hiff : (parse text' vars autoAdd).diagnostics = [] ↔
      (parse text vars autoAdd).diagnostics = [] := by
    rw [← List.map_eq_nil_iff, hfaults, List.map_eq_nil_iff]
  by_cases hd : (parse text vars autoAdd).diagnostics = []
  · obtain ⟨e, he, hforms, -⟩ := exists_forms hd
    obtain ⟨e', he', hforms', -⟩ := exists_forms (hiff.2 hd)
    obtain ⟨moved, hmoved, hm⟩ := hforms.exists_moved hn hn' hl
    rw [hvars] at hforms'
    rw [he, he', hforms'.derives.unique hmoved.derives]
    exact .some hm
  · have hnone {text : List Char} (h : (parse text vars autoAdd).diagnostics ≠ []) :
        (parse text vars autoAdd).expr = none :=
      Option.not_isSome_iff_eq_none.1 (mt isSome_parse_iff.1 h)
    rw [hnone hd, hnone (mt hiff.1 hd)]
    exact .none

/-- When runs of spaces, tabs and line breaks outside the strings of a text are replaced by others,
the tokens stay what they are, and what is reported of them stays. The text is parsed to the same
expression as before, with the same variables, and the same is reported of it, all of it elsewhere
only. -/
theorem parse_of_spaced (hn : '\x00' ∉ text) (h : Spaced (InString text) 0 text text') :
    (scan text').1.map shape = (scan text).1.map shape ∧
      (scan text').2.map (·.unplaced) = (scan text).2.map (·.unplaced) ∧
      ∀ vars autoAdd,
        let parsed := parse text vars autoAdd
        let parsed' := parse text' vars autoAdd
        Option.Rel Moved parsed'.expr parsed.expr ∧
          parsed'.diagnostics.map (·.unplaced) = parsed.diagnostics.map (·.unplaced) ∧
          parsed'.vars = parsed.vars := by
  have hn' := h.not_nul_mem hn
  have hl := Token.lexemes_of_spaced hn h
  exact ⟨shapes_of_lexemes hn hn' hl, faults_scan_of_lexemes hn hn' hl, fun vars autoAdd =>
    ⟨moved_of_lexemes hn hn' hl vars autoAdd, faults_of_lexemes hn hn' hl vars autoAdd⟩⟩

/-- The blanks in the string stay, and those after the function, the comma and the sign do not. -/
theorem parse_of_spaced_print :
    let text := "PRINT (\"a  b\", x + +1)".toList
    let text' := "PRINT\n(\"a  b\",\t x +\r\n+1)".toList
    let vars : Variables := { names := ["x"], values := [0] }
    '\x00' ∉ text ∧ Spaced (InString text) 0 text text' ∧
      (scan text').1.map shape = (scan text).1.map shape ∧
      Option.Rel Moved (parse text' vars false).expr (parse text vars false).expr := by
  intro text text' vars
  have hn : '\x00' ∉ text := by decide
  have hnil : ∀ c ∈ ([] : List Char), c ∈ Token.separators := List.forall_mem_nil _
  have hone {c : Char} (hc : c ∈ Token.separators) : ∀ d ∈ [c], d ∈ Token.separators :=
    List.forall_mem_singleton.2 hc
  have hsign : Spaced (InString text) 18 (' ' :: ([] ++ "+1)".toList))
      ('\r' :: (['\n'] ++ "+1)".toList)) :=
    .gap (by decide) hnil (by decide) (hone (by decide)) (by decide +kernel) (.refl _ _)
  have hcomma : Spaced (InString text) 14 (' ' :: ([] ++ "x + +1)".toList))
      ('\t' :: ([' '] ++ "x +\r\n+1)".toList)) :=
    .gap (by decide) hnil (by decide) (hone (by decide)) (by decide +kernel)
      (hsign.append "x +".toList)
  have hprint : Spaced (InString text) 5 (' ' :: ([] ++ "(\"a  b\", x + +1)".toList))
      ('\n' :: ([] ++ "(\"a  b\",\t x +\r\n+1)".toList)) :=
    .gap (by decide) hnil (by decide) hnil (by decide +kernel)
      (hcomma.append "(\"a  b\",".toList)
  have h : Spaced (InString text) 0 text text' := hprint.append "PRINT".toList
  obtain ⟨htokens, -, hparse⟩ := parse_of_spaced hn h
  exact ⟨hn, h, htokens, (hparse vars false).1⟩

end FormulaScript.Expr
