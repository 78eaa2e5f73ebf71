import FormulaScript.Proofs.Script.Trailing
import FormulaScript.Session

/-!
# The semicolon of a line

The semicolon that a line does without is added behind its last character. Behind a block comment it
ends the statement, as it does in front of the comment. A comment up to the end of the line takes it
in, so a statement with such a comment is refused although the statement itself runs.
-/

namespace FormulaScript.Session

open Script Text

variable {e comment : List Char} {line line' : String} {session : Session}

/-! ## Runs of lines -/

/-- What becomes of a line that has a fault in its structure. -/
def refuse (problem : Problem) (session : Session) : Bool × Session :=
  (false, session.printLines (Diagnostic.report "Equation contains" [fault problem 1]))

/-- A line does what its draft says. -/
theorem runLine_of_draft_eq (h : Draft.ofScript (statementText line).toList =
    Draft.ofScript (statementText line').toList) :
    session.runLine line = session.runLine line' := by
  have hparse : Script.parse (statementText line) session.names =
      Script.parse (statementText line') session.names := by
    unfold Script.parse assemble
    rw [h]
  rw [runLine, runLine, hparse]

theorem runLine_of_broken {problem : Problem}
    (h : Draft.ofScript (statementText line).toList = .broken (fault problem 1)) :
    session.runLine line = session.refuse problem := by
  have hd : (Script.parse (statementText line) session.names).diagnostics = [fault problem 1] := by
    unfold Script.parse assemble
    rw [h]
    rfl
  unfold runLine refuse
  dsimp only
  rw [Script.isClean, Script.report, hd]
  rfl

/-! ## The semicolon -/

theorem toList_statementText_of_semicolon (text : List Char) :
    (statementText (String.ofList (text ++ [';']))).toList = text ++ [';'] := by
  rw [statementText, String.toList_ofList, trimRight_append (by decide), List.getLast?_concat]
  exact String.toList_ofList

theorem toList_statementText_of_slash (text : List Char) :
    (statementText (String.ofList (text ++ ['/']))).toList = text ++ ['/'] ++ [';'] := by
  rw [statementText, String.toList_ofList, trimRight_append (by decide), List.getLast?_concat]
  exact String.toList_append.trans (congrArg (· ++ [';']) String.toList_ofList)

theorem statementText_cases (line : String) :
    statementText line = line ∨ statementText line = line ++ ";" := by
  unfold statementText
  split
  · exact .inl rfl
  · exact .inl rfl
  · exact .inr rfl

/-- The semicolon, if one is added, is part of a comment up to the end of the line. -/
theorem exists_comment_of_line (hc : Comment [] comment) (hn : '\n' ∉ comment)
    (hb : ¬ ['/', '*'] <+: comment) (e : List Char) :
    ∃ behind, Comment [] behind ∧ '\n' ∉ behind ∧
      (statementText (String.ofList (e ++ ' ' :: comment))).toList = e ++ ' ' :: behind := by
  rcases statementText_cases (String.ofList (e ++ ' ' :: comment)) with ht | ht
  · exact ⟨comment, hc, hn, by rw [ht, String.toList_ofList]⟩
  · refine ⟨comment ++ [';'], hc.append_semicolon hb, by simpa using hn, ?_⟩
    rw [ht, String.toList_append, String.toList_ofList, List.append_assoc]
    rfl

/-- A line with a comment behind it, and the same line with a semicolon instead. A block comment
makes no difference, but for a blank in what is quoted behind a header. With a comment up to the end
of the line nothing runs: unless there is nothing in front of it, the line is refused with a fault,
which is the missing semicolon if the line is not a header. -/
theorem runLine_comment (session : Session) (h : Bare e) (hc : Comment [] comment)
    (hn : '\n' ∉ comment) :
    let ended := session.runLine (String.ofList (e ++ [';']))
    let commented := session.runLine (String.ofList (e ++ ' ' :: comment))
    (['/', '*'] <+: comment → commented = ended ∨ ∃ found, found ≠ [] ∧
      ended = session.refuse (.textAfterCondition (String.ofList (found ++ [';']))) ∧
      commented = session.refuse (.textAfterCondition (String.ofList (found ++ [' ', ';'])))) ∧
    (¬ ['/', '*'] <+: comment →
      ((∀ c ∈ e, isBlank c) → commented = ended) ∧
      ((∃ c ∈ e, isBlank c = false) → ∃ problem, commented = session.refuse problem ∧
        ((∀ unit ∈ units e, ∀ keyword ∈ ["if", "while"], afterKeyword keyword unit.text = none) →
          problem = .unexpectedEndOfScript))) := by
  intro ended commented
  have hended := toList_statementText_of_semicolon e
  refine ⟨fun hb => ?_, fun hb => ?_⟩
  · obtain ⟨hblock, front, rfl⟩ := hc.of_block hb [';']
    have hcommented : (statementText (String.ofList (e ++ ' ' :: (front ++ ['/'])))).toList =
        e ++ ' ' :: (front ++ ['/'] ++ [';']) := by
      rw [← List.cons_append, ← List.append_assoc, toList_statementText_of_slash]
      simp
    rcases ofScript_block_comment h hblock hn with hd | ⟨found, hf, hd, hd'⟩
    · exact .inl (runLine_of_draft_eq (by rw [hcommented, hended, hd]))
    · exact .inr ⟨found, hf, runLine_of_broken (by rw [hended, hd]),
        runLine_of_broken (by rw [hcommented, hd'])⟩
  · obtain ⟨behind, hbehind, hnbehind, hcommented⟩ := exists_comment_of_line hc hn hb e
    obtain ⟨hblank, hother⟩ := ofScript_line_comment h hbehind hnbehind
    refine ⟨fun hall => ?_, fun hex => ?_⟩
    · exact runLine_of_draft_eq (by rw [hcommented, hended, hblank hall])
    · obtain ⟨problem, hd, hp⟩ := hother hex
      exact ⟨problem, runLine_of_broken (by rw [hcommented, hd]), hp⟩

theorem runLine_comment_assignment :
    let session := start "k = 1;" {} (.ofSeed 1)
    (session.runLine "k = 7 /* set */" = session.runLine "k = 7;" ∨ ∃ found, found ≠ [] ∧
      session.runLine "k = 7;" =
        session.refuse (.textAfterCondition (String.ofList (found ++ [';']))) ∧
      session.runLine "k = 7 /* set */" =
        session.refuse (.textAfterCondition (String.ofList (found ++ [' ', ';'])))) ∧
    session.runLine "k = 7 // set" = session.refuse .unexpectedEndOfScript := by
  intro session
  have he : Bare "k = 7".toList := by decide
  have hmark : ¬ ['*', '/'] <:+: " set ".toList := by decide
  have hnewline : '\n' ∉ " set".toList := by decide
  have hb : Comment [] "/* set */".toList := .block hmark
  have hl : Comment [] "// set".toList := .line hnewline nofun
  refine ⟨(runLine_comment session he hb (by decide)).1 (by decide), ?_⟩
  obtain ⟨problem, hr, hp⟩ :=
    ((runLine_comment session he hl (by decide)).2 (by decide)).2 ⟨'k', by decide, by decide⟩
  exact hp (by decide) ▸ hr

/-- A semicolon is supplied in front of no comment that goes up to the end of the line. -/
theorem runLine_set_refused :
    let session := start "k = 1;" {} (.ofSeed 1)
    (session.runLine "k = 7;").1 = true ∧ (session.runLine "k = 7 // set").1 = false := by
  decide +kernel

end FormulaScript.Session
