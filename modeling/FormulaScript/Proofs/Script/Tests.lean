import FormulaScript.Proofs.Expr.Shape
import FormulaScript.Proofs.Script.Assembly
import FormulaScript.Proofs.Token.Prefixes

/-!
# Tests

The test of a condition is an expression if the condition is one, and depends on nothing of the
condition but its lexemes.
-/

namespace FormulaScript

open Text

/-! ## Lexemes -/

namespace Token

/-- The lexeme of the name in front of a condition. -/
def Lexeme.ifName : Lexeme := ⟨.function, ['i', 'f'], 1, none⟩

def Lexeme.whole (digit : Char) : Lexeme :=
  ⟨.number (Number.decode? [digit, '.']), [digit, '.'], 1, none⟩

theorem lexemes_if (source : List Char) :
    lexemes ("if(".toList ++ source) = .ifName :: .symbol '(' :: lexemes source := by
  have hd : ("if(".toList ++ source).dropWhile isBlank = 'i' :: 'f' :: '(' :: source := rfl
  have hr : Lexeme.read 'i' ('f' :: '(' :: source) = .ifName := rfl
  rw [lexemes_eq_cons hd, hr]
  exact congrArg _ (lexemes_cons_symbol (by decide) (by decide) (by decide) source)

theorem lexemes_one : lexemes " 1.".toList = [.whole '1'] := by
  have hd : " 1.".toList.dropWhile isBlank = ['1', '.'] := rfl
  have hr : Lexeme.read '1' ['.'] = .whole '1' := rfl
  rw [lexemes_eq_cons hd, hr]
  exact congrArg _ (lexemes_eq_nil rfl)

theorem lexemes_zero : lexemes " 0.)".toList = [.whole '0', .symbol ')'] := by
  have hd : " 0.)".toList.dropWhile isBlank = ['0', '.', ')'] := rfl
  have hr : Lexeme.read '0' ['.', ')'] = .whole '0' := rfl
  rw [lexemes_eq_cons hd, hr]
  exact congrArg _ lexemes_closing

theorem lexemes_values : lexemes " 1., 0.)".toList =
    [.whole '1', .symbol ',', .whole '0', .symbol ')'] := by
  have h : " 1., 0.)".toList = " 1.".toList ++ ',' :: " 0.)".toList := rfl
  have hc : Closed " 1.".toList := by
    rw [Closed, lexemes_one]
    exact List.forall_mem_singleton.2 nofun
  rw [h, hc.lexemes_append_comma, lexemes_one, lexemes_zero]
  rfl

/-- The lexemes of a test are those of its condition and some more. -/
theorem lexemes_wrapped {condition : List Char} (hc : Closed condition) :
    lexemes (Script.wrapped condition) = .ifName :: .symbol '(' :: lexemes condition ++
      [.symbol ',', .whole '1', .symbol ',', .whole '0', .symbol ')'] := by
  have h : Script.wrapped condition =
      "if(".toList ++ (condition ++ ',' :: " 1., 0.)".toList) := List.append_assoc ..
  rw [h, lexemes_if, hc.lexemes_append_comma, lexemes_values]
  rfl

end Token

/-! ## Expressions -/

namespace Script

open Token

theorem not_mem_wrapped {condition : List Char} (h : '\x00' ∉ condition) :
    '\x00' ∉ wrapped condition := by
  have h₁ : '\x00' ∉ "if(".toList := by decide
  have h₂ : '\x00' ∉ ", 1., 0.)".toList := by decide
  simp only [wrapped, List.mem_append, not_or]
  exact ⟨⟨h₁, h⟩, h₂⟩

theorem closed_of_scan {text : List Char} (hn : '\x00' ∉ text) (h : (Token.scan text).2 = []) :
    Closed text :=
  closed_of_faultless ((scan_faultless_iff hn).1 h)

theorem faultless_wrapped {condition : List Char} (hn : '\x00' ∉ condition)
    (h : (Token.scan condition).2 = []) : (Token.scan (wrapped condition)).2 = [] := by
  rw [scan_faultless_iff (not_mem_wrapped hn), lexemes_wrapped (closed_of_scan hn h)]
  rw [scan_faultless_iff hn] at h
  refine List.forall_mem_append.2 ⟨?_, by decide⟩
  exact List.forall_mem_cons.2 ⟨rfl, List.forall_mem_cons.2 ⟨rfl, h⟩⟩

theorem isDelimiter_of_symbol {t : Token} (h : t.shape = (Lexeme.symbol c).shape) :
    t.isDelimiter (String.ofList [c]) :=
  isDelimiter_iff.2 ⟨congrArg Prod.fst h, congrArg Prod.snd h⟩

/-- A digit and a point are a number, since `decode?` gives its value. -/
theorem derives_whole {t : Token} (h : t.shape = (Lexeme.whole digit).shape)
    (hv : (Number.decode? [digit, '.']).isSome) :
    ∃ e, Expr.Derives names .assignment [t] e := by
  obtain ⟨value, hv⟩ := Option.isSome_iff_exists.1 hv
  have hk : t.kind = .number (Number.decode? [digit, '.']) := congrArg Prod.fst h
  exact ⟨_, (Expr.Derives.number (hk.trans (congrArg _ hv))).of_operand⟩

/-- The tokens of a test form an expression if those of its condition do. -/
theorem derives_test {name opening comma one comma' zero closing : Token}
    (hn : name.shape = Lexeme.ifName.shape) (ho : opening.shape = (Lexeme.symbol '(').shape)
    (h : Expr.Derives names .assignment ts e) (hc : comma.shape = (Lexeme.symbol ',').shape)
    (h1 : one.shape = (Lexeme.whole '1').shape) (hc' : comma'.shape = (Lexeme.symbol ',').shape)
    (h0 : zero.shape = (Lexeme.whole '0').shape)
    (hcl : closing.shape = (Lexeme.symbol ')').shape) :
    ∃ test, Expr.Derives names .assignment
      (name :: opening :: (ts ++ comma :: ([one] ++ comma' :: [zero])) ++ [closing]) test := by
  obtain ⟨yes, hyes⟩ := derives_whole h1 rfl
  obtain ⟨no, hno⟩ := derives_whole h0 rfl
  exact ⟨_, (Expr.Derives.conditional (congrArg Prod.fst hn)
    (text_eq_of_shape (t := ⟨.function, "if", 0, {}⟩) hn) (isDelimiter_of_symbol ho) h
    (isDelimiter_of_symbol hc) hyes (isDelimiter_of_symbol hc') hno
    (isDelimiter_of_symbol hcl)).of_operand⟩

/-- The tokens of a test: those of its condition, between the name in front and the values. -/
theorem exists_tokens {condition : List Char} (hn : '\x00' ∉ condition) (hc : Closed condition) :
    ∃ (name opening : Token) (ts : List Token) (comma one comma' zero closing : Token),
      Token.beforeFinish (Token.scan (wrapped condition)).1 =
        name :: opening :: (ts ++ comma :: ([one] ++ comma' :: [zero])) ++ [closing] ∧
      name.shape = Lexeme.ifName.shape ∧ opening.shape = (Lexeme.symbol '(').shape ∧
      ts.map shape = (Token.beforeFinish (Token.scan condition).1).map shape ∧
      comma.shape = (Lexeme.symbol ',').shape ∧ one.shape = (Lexeme.whole '1').shape ∧
      comma'.shape = (Lexeme.symbol ',').shape ∧ zero.shape = (Lexeme.whole '0').shape ∧
      closing.shape = (Lexeme.symbol ')').shape := by
  have hs := shapes_scan (not_mem_wrapped hn)
  rw [lexemes_wrapped hc] at hs
  simp only [List.cons_append, List.map_append, List.map_cons, List.map_nil] at hs
  obtain ⟨name, us, he, hname, hs⟩ := List.map_eq_cons_iff.1 hs
  obtain ⟨opening, us, rfl, ho, hs⟩ := List.map_eq_cons_iff.1 hs
  obtain ⟨ts, us, rfl, hts, hs⟩ := List.map_eq_append_iff.1 hs
  obtain ⟨comma, us, rfl, hc, hs⟩ := List.map_eq_cons_iff.1 hs
  obtain ⟨one, us, rfl, h1, hs⟩ := List.map_eq_cons_iff.1 hs
  obtain ⟨comma', us, rfl, hc', hs⟩ := List.map_eq_cons_iff.1 hs
  obtain ⟨zero, us, rfl, h0, hs⟩ := List.map_eq_cons_iff.1 hs
  obtain ⟨closing, rfl, hcl⟩ := List.map_eq_singleton_iff.1 hs
  rw [← shapes_scan hn] at hts
  exact ⟨name, opening, ts, comma, one, comma', zero, closing, by rw [he]; simp, hname, ho, hts, hc,
    h1, hc', h0, hcl⟩

theorem exists_test {condition : List Char} (hn : '\x00' ∉ condition)
    (h : Expr.Forms names condition e) : ∃ test, Expr.Forms names (wrapped condition) test := by
  obtain ⟨name, opening, ts, comma, one, comma', zero, closing, he, hname, ho, hts, hc, h1, hc', h0,
    hcl⟩ := exists_tokens hn (closed_of_scan hn h.faultless)
  obtain ⟨e', he', -⟩ := h.derives.reshape (Expr.numbersReflexive_scan condition) hts
  obtain ⟨test, ht⟩ := derives_test hname ho he' hc h1 hc' h0 hcl
  exact ⟨test, faultless_wrapped hn h.faultless, he ▸ ht⟩

end Script

end FormulaScript
