import FormulaScript.Proofs.Expr.Gathering
import FormulaScript.Proofs.Expr.Recognition
import FormulaScript.Proofs.Store

/-!
# A shared table

One table of variables serves all the expressions of a program: names are added to it, and texts are
parsed over it, with and without new names and with or without success. Whatever comes of that, the
table has taken some names in turn. So names and slots stay one to one, and a tree that was built
earlier keeps its variables.
-/

namespace FormulaScript

namespace Expr

/-- Slots stay the places of their names when names are added after the others. -/
theorem Named.mono (h : Named names e) (hn : names <+: names') : Named names' e := by
  induction h with
  | literal => exact .literal
  | slot hi =>
    obtain ⟨hlt, -⟩ := List.getElem?_eq_some_iff.1 hi
    obtain ⟨others, rfl⟩ := hn
    exact .slot ((List.getElem?_append_left hlt).trans hi)
  | string => exact .string
  | unary _ ih => exact .unary ih
  | binary _ _ ihl ihr => exact .binary ihl ihr
  | print _ ih => exact .print ih
  | assign _ _ iht ihv => exact .assign iht ihv
  | update _ _ iht ihv => exact .update iht ihv
  | increment _ ih => exact .increment ih
  | conditional _ _ _ iht ihy ihn => exact .conditional iht ihy ihn

/-- Parsing a text adds some names in turn, also if it fails. -/
theorem exists_gather_parse (text : List Char) (vars : Variables) (autoAdd : Bool) :
    ∃ names, (parse text vars autoAdd).vars = vars.gather names := by
  cases autoAdd with
  | false => exact ⟨[], vars_parse text vars⟩
  | true => exact ⟨_, (gathers_parse text vars).1⟩

end Expr

namespace Variables

/-- What is done with a table of variables. -/
inductive Request
  | add (name : String)
  | parse (text : List Char) (autoAdd : Bool)

/-- The table that a request leaves. -/
def answer (vars : Variables) : Request → Variables
  | .add name => (vars.add name).2
  | .parse text autoAdd => (Expr.parse text vars autoAdd).vars

/-- The table that requests leave. -/
def after (vars : Variables) (requests : List Request) : Variables := requests.foldl answer vars

variable {vars : Variables}

theorem exists_gather_answer (vars : Variables) (request : Request) :
    ∃ names, vars.answer request = vars.gather names := by
  cases request with
  | add name => exact ⟨[name], rfl⟩
  | parse text autoAdd => exact Expr.exists_gather_parse text vars autoAdd

/-- Whatever is done with a table, it takes some names in turn. -/
theorem exists_gather (vars : Variables) (requests : List Request) :
    ∃ names, vars.after requests = vars.gather names := by
  induction requests generalizing vars with
  | nil => exact ⟨[], rfl⟩
  | cons request requests ih =>
    obtain ⟨names, hn⟩ := exists_gather_answer vars request
    obtain ⟨others, ho⟩ := ih (vars.answer request)
    refine ⟨names ++ others, ?_⟩
    rw [gather_append, ← hn, ← ho]
    rfl

theorem extends_after (vars : Variables) (requests : List Request) :
    vars.Extends (vars.after requests) := by
  obtain ⟨names, hn⟩ := exists_gather vars requests
  exact hn ▸ extends_gather vars names

theorem length_room_le (hc : vars.capacity = some bound) (names : List String) :
    (vars.room names).length ≤ bound - vars.names.length := by
  rw [room, hc]
  exact List.length_take_le _ _

/-- A table takes no names beyond its capacity. -/
theorem length_gather_le (hc : vars.capacity = some bound) (names : List String) :
    (vars.gather names).names.length ≤ max bound vars.names.length := by
  have hroom := length_room_le hc (vars.unknown names)
  rw [names_gather, List.length_append]
  omega

/-- Among distinct names the slot of a name is where it stands. -/
theorem indexOf?_eq_some_iff (hn : vars.names.Nodup) {name : String} {index : Nat} :
    vars.indexOf? name = some index ↔ vars.names[index]? = some name := by
  rw [indexOf?, List.idxOf?_eq_some_iff, List.getElem?_eq_some_iff]
  constructor
  · rintro ⟨hlt, hname, -⟩
    exact ⟨hlt, hname⟩
  · rintro ⟨hlt, hname⟩
    refine ⟨hlt, hname, fun before hb hsame => ?_⟩
    have hplace : before = index := hn.getElem_inj_iff.1 (hsame.trans hname.symm)
    omega

/-- Whatever has been done with a table of given names: its names are distinct and as many as its
values, a name has the slot at which it stands and keeps it, and the limit is passed only by the
names that were given. An expression that is read over the table has every variable at the place of
its name, also after all that is done with the table later. -/
theorem names_keep_slots (names : List String) (capacity : Option Nat)
    (earlier later : List Request) :
    let vars := (ofNames names capacity).after earlier
    vars.names.Nodup ∧ vars.values.length = vars.names.length ∧
    (∀ name index, vars.indexOf? name = some index ↔ vars.names[index]? = some name) ∧
    (∀ name index, vars.indexOf? name = some index →
      (vars.after later).indexOf? name = some index) ∧
    (∀ bound ∈ capacity, vars.names.length ≤ max bound names.eraseDups.length) ∧
    ∀ text autoAdd, ∀ e ∈ (Expr.parse text vars autoAdd).expr,
      e.Named (vars.after (.parse text autoAdd :: later)).names := by
  intro vars
  have hextends : (ofNames names capacity).Extends vars := extends_after _ earlier
  have hn : vars.names.Nodup := hextends.nodup (nodup_ofNames names capacity)
  refine ⟨hn, hextends.length_values (length_values_ofNames names capacity),
    fun name index => indexOf?_eq_some_iff hn,
    fun name index hi => idxOf?_of_prefix (extends_after vars later).isPrefix hi, ?_, ?_⟩
  · intro bound hb
    obtain ⟨added, ha⟩ := exists_gather (ofNames names capacity) earlier
    have hc : (ofNames names capacity).capacity = some bound :=
      (extends_ofNames names capacity).capacity.trans hb
    have hle := length_gather_le hc added
    rwa [names_ofNames_eq, ← ha] at hle
  · intro text autoAdd e he
    have hd := Expr.isSome_parse_iff.1 (Option.isSome_of_mem he)
    obtain ⟨e', he', hf, -⟩ := Expr.exists_forms hd
    obtain rfl : e' = e := Option.some.inj (he'.symm.trans he)
    exact hf.derives.named.mono (extends_after (vars.answer (.parse text autoAdd)) later).isPrefix

/-- A table for two names refuses a third, and the tree that is read in between keeps its slots. -/
theorem names_keep_slots_refused :
    let vars := (ofNames ["a", "a"] (some 2)).after [.parse "(b".toList true, .add "c"]
    vars.names.length ≤ 2 ∧ vars.indexOf? "b" = some 1 ∧
      (vars.after [.parse "c = 1".toList true]).indexOf? "b" = some 1 ∧
      ∃ e ∈ (Expr.parse "b = a + 1".toList vars false).expr,
        e.Named (vars.after [.parse "b = a + 1".toList false, .parse "c".toList true]).names := by
  intro vars
  obtain ⟨-, -, -, hkept, hle, -⟩ := names_keep_slots ["a", "a"] (some 2)
    [.parse "(b".toList true, .add "c"] [.parse "c = 1".toList true]
  obtain ⟨-, -, -, -, -, htree⟩ := names_keep_slots ["a", "a"] (some 2)
    [.parse "(b".toList true, .add "c"] [.parse "c".toList true]
  have hb : vars.indexOf? "b" = some 1 := by decide +kernel
  obtain ⟨e, he⟩ := Option.isSome_iff_exists.1
    (show (Expr.parse "b = a + 1".toList vars false).expr.isSome by decide +kernel)
  have hbound : max 2 ["a", "a"].eraseDups.length = 2 := by decide
  exact ⟨hbound ▸ hle 2 rfl, hb, hkept "b" 1 hb, e, he, htree _ _ e he⟩

end Variables

end FormulaScript
