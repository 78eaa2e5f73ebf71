import FormulaScript.Equation
import FormulaScript.Proofs.Expr.Gathering

/-!
# The limit on added names

An equation that adds unknown names takes the names that its caller gives, each once, and then new
ones as far as there is room. The room is computed from the list that the caller gives, and every
repetition in it leaves room for one more new name. So the limit holds when the names are distinct.
-/

namespace FormulaScript.Equation

/-- The table of an equation before its text is read. -/
def table (names : List String) : Variables :=
  .ofNames names (some (names.length + autoAddCapacity))

/-- The variables among the tokens that are taken before the reading of an equation stops. -/
def met (text : String) (names : List String) : List Token :=
  let tokens := (Token.scan text.toList).1
  let taken := tokens.take (Expr.ofTokens tokens (table names) true).2.position
  taken.filter (·.isVariable)

theorem names_table (names : List String) : (table names).names = names.eraseDups :=
  Variables.names_ofNames_eq names _

theorem room_table (names others : List String) :
    (table names).room others =
      others.take (autoAddCapacity + (names.length - names.eraseDups.length)) := by
  have hc : (table names).capacity = some (names.length + autoAddCapacity) :=
    (Variables.extends_ofNames names _).capacity
  have hle := Variables.length_eraseDups_le names
  have hroom : names.length + autoAddCapacity - names.eraseDups.length =
      autoAddCapacity + (names.length - names.eraseDups.length) := by omega
  rw [Variables.room, hc, names_table, ← hroom]

theorem unknown_table (names others : List String) :
    (table names).unknown others = (others.filter (· ∉ names)).eraseDups := by
  simp only [Variables.unknown, names_table, List.mem_eraseDups]

/-- An equation that adds unknown names has the names of its caller, each once, and then the new
ones that it meets, in order, up to its limit and one more for every repetition among the names of
its caller. A variable whose name has not found room is reported at every place where it is met. -/
theorem names_parse (text : String) (names : List String) :
    let unknown := (((met text names).map (·.text)).filter (· ∉ names)).eraseDups
    let equation := parse text names true
    equation.vars.names = names.eraseDups ++
      unknown.take (autoAddCapacity + (names.length - names.eraseDups.length)) ∧
    (names.Nodup → equation.vars.names = names ++ unknown.take autoAddCapacity) ∧
    equation.diagnostics.filter (·.problem.code == "CAPACITY_EXCEEDED") =
      ((met text names).filter (·.text ∉ equation.vars.names)).map fun t =>
        ⟨.capacityExceeded t.text, none, some t.position⟩ := by
  intro unknown equation
  obtain ⟨hvars, hrefused⟩ := Expr.gathers_parse text.toList (table names)
  have hnames : equation.vars.names = names.eraseDups ++
      unknown.take (autoAddCapacity + (names.length - names.eraseDups.length)) := by
    change (Expr.parse text.toList (table names) true).vars.names = _
    rw [hvars, Variables.names_gather, names_table, room_table, unknown_table]
    rfl
  refine ⟨hnames, fun hd => ?_, hrefused⟩
  rw [hnames, Variables.eraseDups_of_nodup hd, Nat.sub_self, Nat.add_zero]

theorem names_parse_distinct : ["a", "b"].Nodup ∧
    (parse "c + a * d" ["a", "b"] true).vars.names =
      ["a", "b"] ++ ((((met "c + a * d" ["a", "b"]).map (·.text)).filter
        (· ∉ ["a", "b"])).eraseDups).take autoAddCapacity :=
  ⟨by decide, (names_parse "c + a * d" ["a", "b"]).2.1 (by decide)⟩

/-- With one name given twice an equation adds one name more than its limit. -/
theorem names_parse_repeated :
    let new := (List.range 51).map fun n => s!"b{n}"
    let equation := parse ("+".intercalate new) ["a", "a"] true
    equation.vars.names = "a" :: new ∧ new.length = autoAddCapacity + 1 ∧
      equation.diagnostics.isEmpty := by
  decide +kernel

end FormulaScript.Equation
