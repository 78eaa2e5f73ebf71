import FormulaScript.Proofs.Script.Literals

/-!
# Comments

A comment that starts in code counts for the line feeds that it has: a script without it, with as
many line feeds in its place, has the same units on the same lines. What stands around the comment
cannot make up a mark of a comment when it is gone.
-/

namespace FormulaScript.Script

/-- The text is a comment if the other text follows it. A comment of one line goes up to the end of
the line, without it. -/
inductive Comment (after : List Char) : List Char → Prop
  | block (h : ¬ ['*', '/'] <:+: body) : Comment after ('/' :: '*' :: body ++ ['*', '/'])
  | line (hb : '\n' ∉ body) (ha : ∀ c ∈ after.head?, c = '\n') : Comment after ('/' :: '/' :: body)
  | hash (hb : '\n' ∉ body) (ha : ∀ c ∈ after.head?, c = '\n') : Comment after ('#' :: body)

variable {before after body comment rest : List Char} {mode last : Mode}

/-! ## The comment -/

theorem unitsFrom_of_comment (h : Comment after comment) (pending : List Char) (line : Nat) :
    unitsFrom .code pending line (comment ++ after) =
      unitsFrom .code pending line (List.replicate (comment.count '\n') '\n' ++ after) := by
  cases h with
  | @block body h =>
    have hc : ('/' :: '*' :: body ++ ['*', '/']).count '\n' = body.count '\n' := by simp
    rw [hc, ← unitsFrom_blockComment_append h, List.append_assoc]
    exact unitsFrom.eq_8 ..
  | @line body hb ha =>
    have hc : ('/' :: '/' :: body).count '\n' = 0 := List.count_eq_zero.2 (by simpa using hb)
    rw [hc, List.replicate_zero, List.nil_append, ← unitsFrom_lineComment_append hb ha]
    exact unitsFrom.eq_9 ..
  | @hash body hb ha =>
    have hc : ('#' :: body).count '\n' = 0 := List.count_eq_zero.2 (by simpa using hb)
    rw [hc, List.replicate_zero, List.nil_append, ← unitsFrom_lineComment_append hb ha]
    exact unitsFrom.eq_10 ..

/-! ## What stands in front of it -/

theorem Mode.after_of_between :
    ∀ {mode : Mode} {text : List Char}, mode.between text rest = some last → mode.after text = last
  | mode, [], h => by
    cases h
    rw [Mode.after]
  | mode, [c], h => by
    rw [Mode.between] at h
    split at h
    · cases h
    · cases h
      rfl
  | mode, c :: d :: text, h => by
    rw [Mode.between] at h
    cases hj : mode.joins c d with
    | true => exact (after_mark hj text).trans (after_of_between (by rwa [hj] at h))
    | false => exact (after_cons hj text).trans (after_of_between (by rwa [hj] at h))

/-- A character that no mark with a slash begins with begins no mark. -/
theorem Mode.joins_of_slash (h : mode.joins c '/' = false) (d : Char) : mode.joins c d = false := by
  unfold Mode.joins at h ⊢
  split
  · cases h
  · cases h
  · cases h
  · rfl

/-- If no mark goes over the place in front of a slash, none does whatever stands there. -/
theorem Mode.between_of_slash : ∀ {mode : Mode} {text : List Char},
    mode.between text ('/' :: rest) = some last → ∀ rest', mode.between text rest' = some last
  | mode, [], h, rest' => h
  | mode, [c], h, rest' => by
    rw [Mode.between] at h ⊢
    split at h
    · cases h
    · next hj =>
      have hn := joins_of_slash (Bool.eq_false_iff.2 hj)
      rw [(Option.any_eq_false _ _).2 fun d _ => hn d]
      exact h
  | mode, c :: d :: text, h, rest' => by
    rw [Mode.between] at h ⊢
    split
    · next hj => exact between_of_slash (by rwa [if_pos hj] at h) rest'
    · next hj => exact between_of_slash (by rwa [if_neg hj] at h) rest'

/-- No mark comes up over the place of a comment that is gone. -/
theorem Comment.between (h : Comment after comment)
    (hb : mode.between before (comment ++ after) = some last) :
    mode.between before (List.replicate (comment.count '\n') '\n' ++ after) = some last := by
  cases h with
  | block h => exact Mode.between_of_slash hb _
  | line hb' ha => exact Mode.between_of_slash hb _
  | @hash body hb' ha =>
    have hc : ('#' :: body).count '\n' = 0 := List.count_eq_zero.2 (by simpa using hb')
    rw [hc, List.replicate_zero, List.nil_append, ← Mode.after_of_between hb]
    refine Mode.between_of_head? (fun d hd => ?_) mode before
    rw [ha d hd]
    decide

/-! ## Scripts -/

/-- A comment counts for its line feeds. -/
theorem units_comment (h : Comment after comment)
    (hb : Mode.code.between before (comment ++ after) = some .code) :
    units (before ++ (comment ++ after)) =
      units (before ++ (List.replicate (comment.count '\n') '\n' ++ after)) := by
  obtain ⟨us, pending, line, hu⟩ := exists_reading .code before [] 1
  calc
    units (before ++ (comment ++ after))
    _ = us ++ unitsFrom .code pending line (comment ++ after) := hu _ _ hb
    _ = us ++ unitsFrom .code pending line
          (List.replicate (comment.count '\n') '\n' ++ after) := by rw [unitsFrom_of_comment h]
    _ = units (before ++ (List.replicate (comment.count '\n') '\n' ++ after)) :=
      (hu _ _ (h.between hb)).symm

/-- Comments of all styles, with a quote and a brace in them. -/
theorem units_comment_styles :
    units ("a = 6 ".toList ++ ("/* \" \x7b\n*/".toList ++ "/ 2;".toList)) =
        units ("a = 6 ".toList ++ ("\n".toList ++ "/ 2;".toList)) ∧
      units ("a = \"/*\" + ".toList ++ ("// \" \x7b */".toList ++ "\n2;".toList)) =
        units ("a = \"/*\" + ".toList ++ ([] ++ "\n2;".toList)) ∧
      units ("a = 6 /".toList ++ ("# \" \x7b".toList ++ "\n2;".toList)) =
        units ("a = 6 /".toList ++ ([] ++ "\n2;".toList)) := by
  have hb : ¬ ['*', '/'] <:+: " \" \x7b\n".toList := by decide
  have hl : '\n' ∉ " \" \x7b */".toList := by decide
  have hh : '\n' ∉ " \" \x7b".toList := by decide
  have ha : ∀ c ∈ "\n2;".toList.head?, c = '\n' := by simp
  exact ⟨units_comment (.block hb) (by decide), units_comment (.line hl ha) (by decide),
    units_comment (.hash hh ha) (by decide)⟩

/-- A slash in front of a comment is read as part of its mark. -/
example : Mode.code.between "a = 6 /".toList "/* b */ 2;".toList = none := by decide

end FormulaScript.Script
