import FormulaScript.Proofs.Expr.Positions
import FormulaScript.Proofs.Script.Names
import FormulaScript.Proofs.Script.Ordering

/-!
# Positions in scripts

The positions in what is reported of a statement are those in its text. A condition is parsed as the
first argument of a call, and the positions are those in this call, so they are three too many for
the text of the condition itself.
-/

namespace FormulaScript.Script

open Text Token

/-! ## Tests -/

/-- The tokens of a test are the name of its call, a parenthesis, and those of what follows. -/
theorem scanFrom_if (source : List Char) : ∃ call opening,
    (scanFrom 0 {} ("if(".toList ++ source)).1 =
      call :: opening :: (scanFrom 3 (.ofText "if(".toList) source).1 ∧
      call.kind = .function ∧ call.text = "if" ∧ opening.kind = .delimiter := by
  have hc : ("if(".toList ++ source).dropWhile isBlank = 'i' :: 'f' :: '(' :: source := rfl
  have ho : ('(' :: source).dropWhile isBlank = '(' :: source := rfl
  have hcall : Lexeme.read 'i' ('f' :: '(' :: source) = .ifName := rfl
  have hopening : Lexeme.read '(' source = .symbol '(' :=
    Lexeme.read_symbol (by decide) (by decide) source
  rw [scanFrom_eq_cons hc, hcall]
  dsimp only [Lexeme.ifName, List.drop]
  rw [scanFrom_eq_cons ho, hopening]
  exact ⟨_, _, rfl, rfl, rfl, rfl⟩

/-- An unknown name that a token of a test is reported for stands in the condition, three characters
in front of its place in the test. -/
theorem exists_place_in_test {condition : List Char} {d : Diagnostic} {t : Token}
    (ht : t ∈ (scan (wrapped condition)).1) (hd : d.Of t) :
    3 ≤ t.position ∧ StandsAt t.text condition (t.position - 3) := by
  let source := beforeNul (condition ++ testEnd)
  have hsource : beforeNul (wrapped condition) = "if(".toList ++ source := by
    rw [wrapped_eq, beforeNul_append (by decide)]
  have hname : t.kind = .name ∨ t.kind = .function := hd.kind.imp_right And.left
  obtain ⟨hword, front, back, hfront, hposition⟩ := exists_name_at ht hname
  have hle : 3 ≤ t.position := by
    obtain ⟨call, opening, htokens, hck, hct, hok⟩ := scanFrom_if source
    rw [scan, hsource, htokens] at ht
    rcases List.mem_cons.1 ht with rfl | ht
    · -- the call of the test is one of a function that exists
      rcases hd.kind with hk | ⟨-, hn⟩
      · rw [hck] at hk
        cases hk
      · rw [hct] at hn
        cases hn
    · rcases List.mem_cons.1 ht with rfl | ht
      · rw [hok] at hname
        rcases hname with hk | hk <;> cases hk
      · exact (tiles_scanFrom "if(".toList source).le_position ht
  refine ⟨hle, ?_⟩
  have hlength : "if(".toList.length ≤ front.length := hposition ▸ hle
  rw [hsource, List.append_assoc] at hfront
  obtain ⟨front, rfl⟩ :=
    List.prefix_of_prefix_length_le ⟨source, hfront⟩ (List.prefix_append front _) hlength
  rw [List.append_assoc, List.append_cancel_left_eq, ← List.append_assoc] at hfront
  obtain ⟨nul, hnul⟩ : source <+: condition ++ testEnd := List.takeWhile_prefix _
  have hcomma : ∀ c ∈ testEnd.head?, isDelimiterChar c := by
    rintro _ ⟨⟩
    rfl
  have hall : condition ++ testEnd = front ++ t.text.toList ++ (back ++ nul) := by
    rw [← List.append_assoc, ← hfront, hnul]
  obtain ⟨rest, rfl⟩ := exists_of_name hword hcomma
    (fun c hm => isLetter_eq_false c (List.mem_append_right _ hm)) hall
  have hoffset : t.position - 3 = front.length := by
    rw [hposition, List.length_append]
    exact Nat.add_sub_cancel_left 3 front.length
  rw [hoffset]
  exact standsAt_of_append

/-! ## Parts -/

/-- Where the name stands that is reported at a position of the part. -/
def Part.Locates (name : String) (position : Nat) : Part → Prop
  | statement text _ => StandsAt name text position
  | condition text _ => 3 ≤ position ∧ StandsAt name text (position - 3)
  | broken _ => False

theorem Part.exists_place {part : Part} {d : Diagnostic} {vars : Variables} {autoAdd : Bool}
    (hp : part.On us) (hd : d ∈ part.report vars autoAdd) (hu : d.isUnknown) :
    ∃ name position, d.name? = some name ∧ d.position = some position ∧
      part.Locates name position := by
  cases part with
  | statement text line =>
    simp only [report, parseEquation] at hd
    split at hd
    · cases hd
    · rcases List.mem_cons.1 hd with rfl | hd
      · cases hu
      · obtain ⟨d, hm, rfl⟩ := List.mem_map.1 hd
        obtain ⟨t, ht, hof⟩ := Expr.exists_of_mem_parse hm hu
        refine ⟨t.text, t.position, hof.name, hof.position, ?_⟩
        obtain ⟨-, front, back, hf, hposition⟩ := exists_name_at ht (hof.kind.imp_right And.left)
        obtain ⟨nul, hnul⟩ : beforeNul text <+: text := List.takeWhile_prefix _
        rw [Locates, ← hnul, hf, hposition, List.append_assoc _ back]
        exact standsAt_of_append
  | condition text line =>
    obtain ⟨d, hm, rfl⟩ := List.mem_map.1 hd
    obtain ⟨t, ht, hof⟩ := Expr.exists_of_mem_parse hm hu
    exact ⟨t.text, t.position, hof.name, hof.position, exists_place_in_test ht hof⟩
  | broken fault =>
    obtain ⟨unit, -, problem, hc, rfl⟩ := hp
    rw [List.mem_singleton.1 hd] at hu
    have hn : (fault problem unit.line).isUnknown = false := by
      cases problem with
      | missingSemicolon | missingParenthesis | missingBraceAfterElse | missingBraceAfterCondition
      | textAfterCondition | emptyCondition | unmatchedBrace | unexpectedEndOfScript
      | unbalancedCondition | unbalancedBraces => rfl
      | _ => cases hc
    rw [hn] at hu
    cases hu

/-! ## Scripts -/

/-- What is reported of a script is reported of its parts. An unknown name of a statement stands in
its text at the position of the report, one of a condition three characters in front of it. -/
theorem unknown_names_located (text : String) (names : List String) :
    let vars := Variables.ofNames names (some names.length)
    let parts := (Draft.ofScript text.toList).parts
    (parse text names).diagnostics = parts.flatMap (·.report vars false) ∧
      ∀ part ∈ parts, ∀ d ∈ part.report vars false, d.isUnknown →
        ∃ name position, d.name? = some name ∧ d.position = some position ∧
          part.Locates name position := by
  intro vars parts
  refine ⟨(Draft.ofScript text.toList).diagnostics_eq_flatMap vars, fun part hp d hd hu => ?_⟩
  exact Part.exists_place ((ordered_ofScript text.toList).on part hp) hd hu

theorem unknown_names_located_branch :
    let text := "if (1 < f(y)) \x7b x = 2 *\ng (z); \x7d"
    let vars := Variables.ofNames ["x"] (some 1)
    let condition := Part.condition "1 < f(y)".toList 1
    let statement := Part.statement "x = 2 * g (z)".toList 2
    let parts := (Draft.ofScript text.toList).parts
    parts = [condition, statement] ∧
      condition.report vars false = [⟨.unknownFunction "f", some 1, some 7⟩] ∧
      (parse text ["x"]).diagnostics = parts.flatMap (·.report vars false) ∧
      ∃ name position, (Diagnostic.mk (.unknownFunction "f") (some 1) (some 7)).name? = some name ∧
        some 7 = some position ∧ condition.Locates name position := by
  intro text vars condition statement parts
  have hp : parts = [condition, statement] := by decide +kernel
  have hr : condition.report vars false = [⟨.unknownFunction "f", some 1, some 7⟩] := by
    decide +kernel
  have hm : condition ∈ parts := by
    rw [hp]
    exact List.mem_cons_self
  obtain ⟨hd, hl⟩ := unknown_names_located text ["x"]
  exact ⟨hp, hr, hd, hl condition hm _ (hr ▸ List.mem_singleton_self _) rfl⟩

/-- The position of a name in a condition is not its place in the text of the condition. -/
theorem condition_name_shifted :
    let text := "if (y) \x7b x = 1; \x7d"
    (Draft.ofScript text.toList).parts.head? = some (.condition ['y'] 1) ∧
      (parse text ["x"]).diagnostics = [⟨.unknownVariable "y", some 1, some 3⟩] ∧
      ¬ StandsAt "y" ['y'] 3 := by
  decide +kernel

end FormulaScript.Script
