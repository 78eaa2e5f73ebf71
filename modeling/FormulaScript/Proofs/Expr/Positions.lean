import FormulaScript.Proofs.Expr.Gathering
import FormulaScript.Proofs.Token.Boundaries

/-!
# Positions of names

An unknown variable or function is reported at the token that names it, and a token stands in the
text where its position says. So the name stands in the text at the position of the report.
-/

namespace FormulaScript

/-- Whether an unknown variable or an unknown function is reported. -/
def Diagnostic.isUnknown (diagnostic : Diagnostic) : Bool :=
  diagnostic.problem.code == "UNKNOWN_VARIABLE" || diagnostic.problem.code == "UNKNOWN_FUNCTION"

/-- The name of the variable or function that is reported as unknown. -/
def Diagnostic.name? (diagnostic : Diagnostic) : Option String :=
  match diagnostic.problem with
  | .unknownVariable name | .unknownFunction name => some name
  | _ => none

/-- The token names what is reported, a variable or a function that does not exist, and stands where
it is reported. -/
structure Diagnostic.Of (diagnostic : Diagnostic) (t : Token) : Prop where
  name : diagnostic.name? = some t.text
  position : diagnostic.position = some t.position
  kind : t.kind = .name ∨ t.kind = .function ∧ Builtin.ofName? t.text = none

/-! ## Texts -/

/-- The name stands in the text with so many characters in front of it. -/
def StandsAt (name : String) (text : List Char) (position : Nat) : Prop :=
  (text.drop position).take name.length = name.toList

instance (name : String) (text : List Char) (position : Nat) :
    Decidable (StandsAt name text position) := inferInstanceAs (Decidable (_ = _))

theorem standsAt_of_append {name : String} {front back : List Char} :
    StandsAt name (front ++ name.toList ++ back) front.length := by
  rw [StandsAt, List.append_assoc, List.drop_left, ← String.length_toList]
  exact List.take_left

namespace Token

/-- The name of a variable or a function stands in the text where its token does. -/
theorem exists_name_at {text : List Char} {t : Token} (ht : t ∈ (scan text).1)
    (hk : t.kind = .name ∨ t.kind = .function) : IsName t.text.toList ∧
      ∃ front back,
        beforeNul text = front ++ t.text.toList ++ back ∧ t.position = front.length := by
  have hf : t.isFinish = false := isFinish_eq_false (by rcases hk with hk | hk <;> simp [hk])
  obtain ⟨front, first, rest, hs, rfl, -⟩ :=
    (tiles_scanFrom [] (beforeNul text)).exists_read ht hf
  have hne : (Lexeme.read first rest).kind ≠ .string := by
    change (Lexeme.read first rest).kind = _ ∨ (Lexeme.read first rest).kind = _ at hk
    rcases hk with hk | hk <;> simp [hk]
  have htext : ((Lexeme.read first rest).token front.length (.ofText front)).text.toList =
      (Lexeme.read first rest).text := String.toList_ofList
  rw [htext]
  refine ⟨Lexeme.isName_read hk, front, rest.drop (Lexeme.read first rest).more, ?_, rfl⟩
  rw [← Lexeme.cons_take_read hne, List.append_assoc, List.cons_append, List.take_append_drop]
  exact hs

end Token

/-! ## Reading -/

namespace Reader

/-- Tokens have been taken, and every unknown name that has been reported is one of theirs, or was
reported before. -/
structure Points (reader left : Reader) : Prop where
  rest : ∃ ts, reader.rest = ts ++ left.rest ∧ ∀ t ∈ ts, t.isFinish = false
  reported : ∀ d ∈ left.diagnostics, d.isUnknown →
    d ∈ reader.diagnostics ∨ ∃ t ∈ reader.rest, d.Of t

variable {reader left last : Reader}

theorem Points.refl (reader : Reader) : Points reader reader :=
  ⟨⟨[], rfl, List.forall_mem_nil _⟩, fun _ hd _ => .inl hd⟩

theorem Points.trans (h : Points reader left) (h' : Points left last) : Points reader last := by
  obtain ⟨ts, hr, hts⟩ := h.rest
  obtain ⟨us, hr', hus⟩ := h'.rest
  refine ⟨⟨ts ++ us, by rw [hr, hr', List.append_assoc], List.forall_mem_append.2 ⟨hts, hus⟩⟩,
    fun d hd hu => ?_⟩
  rcases h'.reported d hd hu with hd | ⟨t, ht, hof⟩
  · exact h.reported d hd hu
  · exact .inr ⟨t, hr ▸ List.mem_append_right ts ht, hof⟩

theorem Points.supplied (h : Points reader left) (hs : reader.Supplied) : left.Supplied := by
  obtain ⟨ts, hr, hts⟩ := h.rest
  exact hs.of_rest hr hts

/-- A token has been taken, and nothing is reported but this token or what is no unknown name. -/
theorem Points.take (hs : reader.Supplied) (hf : reader.next.kind ≠ .finish)
    (hr : left.rest = reader.skip.rest)
    (hd : ∀ d ∈ left.diagnostics, d ∈ reader.diagnostics ∨ d.isUnknown = false ∨
      d.Of reader.next) : Points reader left where
  rest := ⟨[reader.next], hr ▸ hs.rest_eq, List.forall_mem_singleton.2 (Token.isFinish_eq_false hf)⟩
  reported d hm hu := by
    rcases hd d hm with hm | hn | hof
    · exact .inl hm
    · rw [hn] at hu
      cases hu
    · exact .inr ⟨reader.next, hs.rest_eq ▸ List.mem_cons_self, hof⟩

end Reader

namespace Expr

open Read Reader

/-- What is in the diagnostics of a reader that has reported a problem. -/
theorem mem_report {reader : Reader} {problem : Problem} {t : Token} {p : Diagnostic → Prop}
    (h : p ⟨problem, none, some t.position⟩) :
    ∀ d ∈ (reader.report problem t).diagnostics, d ∈ reader.diagnostics ∨ p d :=
  List.forall_mem_append.2 ⟨fun _ hd => .inl hd, List.forall_mem_singleton.2 (.inr h)⟩

theorem points_resolve {reader : Reader} (hs : reader.Supplied) (hk : reader.next.kind = .name) :
    (resolve reader.next).Ends reader.skip (fun _ left => Points reader left) fun _ => False := by
  have hf : reader.next.kind ≠ .finish := by simp [hk]
  have hskip : Points reader reader.skip := .take hs hf rfl fun _ hd => .inl hd
  cases hc : constants.lookup reader.next.text with
  | some value => simpa only [Expr.resolve, hc, ends_pure] using hskip
  | none =>
    simp only [Expr.resolve, hc, ends_bind, ends_get]
    cases reader.skip.vars.indexOf? reader.next.text with
    | some index => exact hskip
    | none =>
      dsimp only
      split
      · cases (reader.skip.vars.add reader.next.text).1 with
        | some index => exact .take hs hf rfl fun _ hd => .inl hd
        | none =>
          simp only [ends_bind, ends_set, ends_report, ends_pure]
          exact .take hs hf rfl (mem_report (.inl rfl))
      · simp only [ends_bind, ends_report, ends_pure]
        exact .take hs hf rfl (mem_report (.inr ⟨rfl, rfl, .inl hk⟩))

theorem steps_points : Steps Points where
  refl := .refl
  trans := .trans
  supplied := Points.supplied
  skip hs hf _ := .take hs hf rfl fun _ hd => .inl hd
  resolve hs hk := (points_resolve hs hk).mono (fun _ _ h => h) fun _ h => h.elim
  unknown hs hk hn := .take hs (by simp [hk]) rfl (mem_report (.inr ⟨rfl, rfl, .inr ⟨hk, hn⟩⟩))
  report {problem} t reader h := by
    refine ⟨⟨[], rfl, List.forall_mem_nil _⟩, fun d hd hu => ?_⟩
    rcases List.mem_append.1 hd with hd | hd
    · exact .inl hd
    · have hn : Diagnostic.isUnknown ⟨problem, none, some t.position⟩ = false := by
        simp only [Problem.isOfName, Bool.or_eq_false_iff] at h
        simp only [Diagnostic.isUnknown, h, Bool.or_self]
      rw [List.mem_singleton.1 hd, hn] at hu
      cases hu

theorem isUnknown_of_mem_scan {text : List Char} {d : Diagnostic} (h : d ∈ (Token.scan text).2) :
    d.isUnknown = false := by
  rcases problem_of_mem_scan h with hp | ⟨number, hp⟩ <;>
    simp [Diagnostic.isUnknown, hp, Problem.code]

/-- An unknown name is reported of a token of the text. -/
theorem exists_of_mem_parse {text : List Char} {vars : Variables} {autoAdd : Bool} {d : Diagnostic}
    (h : d ∈ (parse text vars autoAdd).diagnostics) (hu : d.isUnknown) :
    ∃ t ∈ (Token.scan text).1, d.Of t := by
  rcases List.mem_append.1 h with h | h
  · rw [isUnknown_of_mem_scan h] at hu
    cases hu
  · have hp := steps_points.ofTokens (supplied_scan text vars autoAdd)
    exact (hp.reported d h hu).resolve_left List.not_mem_nil

end Expr

end FormulaScript
