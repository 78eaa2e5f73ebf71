import FormulaScript.Proofs.Expr.Reads
import FormulaScript.Proofs.Expr.Targets
import FormulaScript.Proofs.Script.Assignments
import FormulaScript.Proofs.Text.CodeRange
import FormulaScript.Proofs.Token.Names

/-!
# Chains of assignments

Assignments group to the left. The last operator of a chain stores its value into all variables of
the chain, whatever the operators between them are, and one that combines takes the old value after
the variables before have been assigned to. Grouped to the right by parentheses, a chain does the
same if the operators before the last one are equals signs and the last operand does not read what
they have assigned to.
-/

namespace FormulaScript

open Text Token

/-! ## Links -/

/-- A variable with an assignment operator after it. -/
structure Link where
  name : String
  symbol : String

namespace Link

/-- The link in front of a text. -/
def text (link : Link) (rest : List Char) : List Char :=
  link.name.toList ++ ' ' :: (link.symbol.toList ++ ' ' :: rest)

/-- The slot of the link's variable. -/
def slot (names : List String) (link : Link) : Nat := names.idxOf link.name

/-- The link's variable as an expression. -/
def tree (names : List String) (link : Link) : Expr := .slot link.name (link.slot names) {}

/-- The link is a variable of the table with one of the assignment operators. -/
structure Fits (names : List String) (link : Link) : Prop where
  isName : IsName link.name.toList
  ne_pi : link.name ≠ "PI"
  mem : link.name ∈ names
  symbol : link.symbol ∈ Expr.Level.assignment.symbols

def nameLexeme (link : Link) : Lexeme :=
  ⟨.name, link.name.toList, link.name.toList.length - 1, none⟩

def symbolLexeme (link : Link) : Lexeme :=
  ⟨.delimiter, link.symbol.toList, link.symbol.toList.length - 1, none⟩

def lexemes (link : Link) : List Lexeme := [link.nameLexeme, link.symbolLexeme]

def tokens (link : Link) : List Token := link.lexemes.map Lexeme.unplaced

end Link

/-! ## Lexemes -/

theorem Token.lexemes_name {name rest : List Char} (h : IsName name)
    (hs : ∀ c ∈ (rest.dropWhile isBlank).head?, c ≠ '(') :
    lexemes (name ++ ' ' :: rest) = ⟨.name, name, name.length - 1, none⟩ :: lexemes rest := by
  obtain ⟨first, hf, hl⟩ := h.letter
  obtain ⟨tail, rfl⟩ : ∃ tail, name = first :: tail := List.head?_eq_some_iff.1 hf
  obtain ⟨hd, htail⟩ := List.forall_mem_cons.1 h.run
  have hrun : run (tail ++ ' ' :: rest) = tail := by
    have htake : (tail ++ ' ' :: rest).takeWhile (!isDelimiterChar ·) =
        tail ++ (' ' :: rest).takeWhile (!isDelimiterChar ·) :=
      List.takeWhile_append_of_pos fun c hc => by simp [htail c hc]
    rw [run, htake]
    exact List.append_nil tail
  have hread : Lexeme.read first (tail ++ ' ' :: rest) =
      ⟨.name, first :: tail, tail.length, none⟩ := by
    have hq : first ≠ '"' := by
      rintro rfl
      exact absurd hl (by decide +kernel)
    have hdot : first ≠ '.' := by
      rintro rfl
      exact absurd hl (by decide +kernel)
    have hn : startsNumber first (tail ++ ' ' :: rest) = false := by
      simp [startsNumber, isDigit_of_isLetter hl, hdot]
    have hafter : ((tail ++ ' ' :: rest).drop tail.length).dropWhile isBlank =
        rest.dropWhile isBlank := by
      rw [List.drop_left]
      rfl
    have hopen : (rest.dropWhile isBlank).head? ≠ some '(' := fun ho => hs _ ho rfl
    unfold Lexeme.read
    simp only [hq, hd, hn, hl, hrun, List.length_cons, Nat.add_sub_cancel, hafter, hopen, if_false,
      if_true, Bool.false_eq_true]
  have hdrop : ((first :: tail) ++ ' ' :: rest).dropWhile isBlank =
      first :: (tail ++ ' ' :: rest) :=
    List.dropWhile_cons_of_neg (by simp [isBlank_of_isLetter hl])
  rw [lexemes_eq_cons hdrop, hread]
  dsimp only
  rw [List.drop_left, lexemes_cons_of_blank (by decide)]
  rfl

theorem Token.exists_operator (h : symbol ∈ Expr.Level.assignment.symbols) :
    ∃ first tail, symbol.toList = first :: tail ∧ isBlank first = false ∧ first ≠ '(' ∧
      ∀ rest, Lexeme.read first (tail ++ ' ' :: rest) =
        ⟨.delimiter, first :: tail, tail.length, none⟩ := by
  have hs : symbol ∈ ["=", "+=", "-=", "*=", "/="] := h
  simp only [List.mem_cons, List.not_mem_nil, or_false] at hs
  rcases hs with rfl | rfl | rfl | rfl | rfl
  · exact ⟨'=', [], by decide, by decide, by decide, fun _ => rfl⟩
  · exact ⟨'+', ['='], by decide, by decide, by decide, fun _ => rfl⟩
  · exact ⟨'-', ['='], by decide, by decide, by decide, fun _ => rfl⟩
  · exact ⟨'*', ['='], by decide, by decide, by decide, fun _ => rfl⟩
  · exact ⟨'/', ['='], by decide, by decide, by decide, fun _ => rfl⟩

namespace Link

variable {names : List String} {link : Link}

theorem Fits.lexemes_text (h : link.Fits names) (rest : List Char) :
    Token.lexemes (link.text rest) = link.lexemes ++ Token.lexemes rest := by
  obtain ⟨first, tail, hs, hb, ho, hr⟩ := exists_operator h.symbol
  have hdrop : (link.symbol.toList ++ ' ' :: rest).dropWhile isBlank =
      first :: (tail ++ ' ' :: rest) := by
    rw [hs]
    exact List.dropWhile_cons_of_neg (by simp [hb])
  have hhead : ∀ c ∈ ((link.symbol.toList ++ ' ' :: rest).dropWhile isBlank).head?, c ≠ '(' := by
    rw [hdrop]
    rintro _ ⟨⟩
    exact ho
  rw [text, lexemes_name h.isName hhead, lexemes_eq_cons hdrop, hr]
  dsimp only
  rw [List.drop_left, lexemes_cons_of_blank (by decide), lexemes, symbolLexeme, hs]
  rfl

theorem Fits.not_mem_nul (h : link.Fits names) (hr : '\x00' ∉ rest) : '\x00' ∉ link.text rest := by
  have hsymbols : ∀ symbol ∈ Expr.Level.assignment.symbols, '\x00' ∉ symbol.toList := by decide
  have hname : '\x00' ∉ link.name.toList := fun hm =>
    absurd (h.isName.run _ hm) (by decide)
  simp [text, hname, hsymbols _ h.symbol, hr]

theorem faultless (link : Link) : ∀ lexeme ∈ link.lexemes, lexeme.problem = none :=
  List.forall_mem_cons.2 ⟨rfl, List.forall_mem_singleton.2 rfl⟩

end Link

/-! ## Trees -/

theorem fill_nil (value : Float) (values : List Float) : fill [] value values = values :=
  List.ext_getElem (length_fill ..) fun index _ _ => by simp [fill]

namespace Expr

/-- The assignment that an operator makes. -/
def assigning (symbol : String) (target source : Expr) : Expr :=
  match Level.updates.lookup symbol with
  | none => .assign target source {}
  | some op => .update op target source {}

/-- The operator is an equals sign or combines the old value with the new one. -/
theorem assigning_cases (h : symbol ∈ Level.assignment.symbols) :
    (symbol = "=" ∧ ∀ target source, assigning symbol target source = .assign target source {}) ∨
    ∃ op, (symbol, op) ∈ Level.updates ∧
      ∀ target source, assigning symbol target source = .update op target source {} := by
  rcases List.mem_cons.1 h with rfl | h
  · exact .inl ⟨rfl, fun _ _ => rfl⟩
  · obtain ⟨⟨symbol, op⟩, hm, rfl⟩ := List.mem_map.1 h
    have hl : ∀ operator ∈ Level.updates,
        Level.updates.lookup operator.1 = some operator.2 := by decide
    refine .inr ⟨op, hm, fun target source => ?_⟩
    rw [assigning, hl _ hm]

end Expr

namespace Link

open FormulaScript.Expr

variable {names : List String} {link : Link}

theorem isDelimiter_symbol (link : Link) :
    link.symbolLexeme.unplaced.isDelimiter link.symbol :=
  isDelimiter_iff.2 ⟨rfl, String.ofList_toList⟩

theorem text_name (link : Link) : link.nameLexeme.unplaced.text = link.name :=
  String.ofList_toList

theorem Fits.slot_lt (h : link.Fits names) : link.slot names < names.length :=
  List.idxOf_lt_length_iff.2 h.mem

theorem Fits.getElem?_slot (h : link.Fits names) : names[link.slot names]? = some link.name :=
  List.getElem?_eq_some_iff.2 ⟨h.slot_lt, List.getElem_idxOf h.slot_lt⟩

theorem Fits.idxOf?_slot (h : link.Fits names) :
    names.idxOf? link.name = some (link.slot names) :=
  List.findIdx?_eq_some_iff_findIdx_eq.2 ⟨h.slot_lt, rfl⟩

theorem Fits.derives_name (h : link.Fits names) :
    Derives names .operand [link.nameLexeme.unplaced] (link.tree names) := by
  have hd : Derives names .operand [link.nameLexeme.unplaced]
      (.slot link.nameLexeme.unplaced.text (link.slot names) {}) :=
    .slot rfl (link.text_name ▸ h.ne_pi) (link.text_name ▸ h.idxOf?_slot)
  rwa [link.text_name] at hd

/-- The operator of the link assigns to what is formed up to the link's variable. -/
theorem Fits.derives_assigning (h : link.Fits names)
    (ht : Derives names .assignment (ts ++ [link.nameLexeme.unplaced]) target)
    (ha : target.isAssignable) (hs : Derives names .disjunction us source) :
    Derives names .assignment (ts ++ link.tokens ++ us) (assigning link.symbol target source) := by
  have hsplit : ts ++ link.tokens ++ us =
      (ts ++ [link.nameLexeme.unplaced]) ++ link.symbolLexeme.unplaced :: us := by
    simp [tokens, lexemes]
  have hd := link.isDelimiter_symbol
  rw [hsplit]
  rcases assigning_cases h.symbol with ⟨he, hassign⟩ | ⟨op, hop, hassign⟩
  · rw [hassign]
    exact .assign ht ha (he ▸ hd) hs
  · rw [hassign]
    exact .update ht ha hop hd hs

variable {front : List Link} {last : Link}

theorem chained (h : ∀ link ∈ front, link.Fits names) (he : ∀ link ∈ front, link.symbol = "=") :
    Chained names (front.flatMap tokens) (front.map (slot names)) := by
  induction front using List.reverseRecOn with
  | nil => exact .nil
  | append_singleton front link ih =>
    obtain ⟨h, hl⟩ := List.forall_mem_append.1 h
    obtain ⟨he, hel⟩ := List.forall_mem_append.1 he
    have hlast := hl link List.mem_cons_self
    rw [List.flatMap_append, List.map_append]
    refine .snoc (ih h he) rfl (link.text_name ▸ hlast.ne_pi)
      (link.text_name ▸ hlast.idxOf?_slot) ?_
    exact hel link List.mem_cons_self ▸ link.isDelimiter_symbol

/-! ## Targets -/

/-- The variables of some links and of a last one, grouped to the left as a target. -/
structure IsTarget (names : List String) (front : List Link) (last : Link) (target : Expr) :
    Prop where
  derives : Derives names .assignment (front.flatMap tokens ++ [last.nameLexeme.unplaced]) target
  isAssignable : target.isAssignable
  targetSlots : target.targetSlots = front.map (slot names) ++ [last.slot names]
  /-- Its evaluation gives the variables of the links the value of the last one. -/
  run : ∀ (tolerance : Int) (context : Context) (value : Float),
    names.length ≤ context.values.length → context.values[last.slot names]? = some value →
    (target.evaluate tolerance).run context =
      .ok value { context with values := fill (front.map (slot names)) value context.values }

theorem run_tree {context : Context} (hv : context.values[link.slot names]? = some value)
    (tolerance : Int) : ((link.tree names).evaluate tolerance).run context = .ok value context := by
  rw [tree, evaluate, Evaluation.run_read, hv]

theorem exists_target (h : ∀ link ∈ front, link.Fits names)
    (he : ∀ link ∈ front, link.symbol = "=") (hl : last.Fits names) :
    ∃ target, IsTarget names front last target := by
  have hlast : Derives names .disjunction [last.nameLexeme.unplaced] (last.tree names) :=
    hl.derives_name.disjunction_of_operand
  by_cases hne : front.flatMap tokens = []
  · have hfront : front = [] := by
      cases front with
      | nil => rfl
      | cons => cases hne
    subst hfront
    refine ⟨last.tree names, hl.derives_name.of_operand, rfl, rfl, ?_⟩
    intro tolerance context value _ hv
    rw [run_tree hv, List.map_nil, fill_nil]
  · obtain ⟨target, l, hd, ha, hslots⟩ := (chained h he).derives hne hlast
    have hsafe : Safe names.length target := by
      cases hd.safe with
      | assign h => exact h
    refine ⟨.assign target (last.tree names) l, hd, rfl, ?_, ?_⟩
    · rw [← hslots]
      exact List.map_append
    · intro tolerance context value hn hv
      rw [evaluate, EStateM.run_bind, run_tree hv]
      dsimp only
      rw [hsafe.fillsTargets ha value context hn, hslots]

end Link

/-! ## Evaluation -/

/-- Contexts that differ only in slots that are filled become the same. -/
theorem Context.Agree.fill_eq {hidden : Nat → Prop} {left left' : Context}
    (h : left.Agree hidden left') (hs : ∀ index, hidden index → index ∈ slots) (value : Float) :
    ({ left with values := fill slots value left.values } : Context) =
      { left' with values := fill slots value left'.values } := by
  have hvalues : fill slots value left.values = fill slots value left'.values := by
    refine List.ext_getElem (by simp [length_fill, h.length]) fun index hi hi' => ?_
    rw [length_fill] at hi hi'
    simp only [fill, List.getElem_mapIdx]
    split
    · rfl
    · next hn =>
      have heq := h.values index (mt (hs index) hn)
      rw [List.getElem?_eq_getElem hi, List.getElem?_eq_getElem hi'] at heq
      exact Option.some.inj heq
  rw [h.toShared, hvalues]

namespace Expr

/-- On `n` slots at least, the expression does what another one does, and puts the value of that
one into some slots as well. -/
def FillsAfter (n : Nat) (slots : List Nat) (innermost e : Expr) : Prop :=
  ∀ (tolerance : Int) (context : Context), n ≤ context.values.length →
    ∃ value left, n ≤ left.values.length ∧
      (innermost.evaluate tolerance).run context = .ok value left ∧
      (e.evaluate tolerance).run context =
        .ok value { left with values := fill slots value left.values }

theorem Safe.fillsAfter_self (h : Safe n e) : FillsAfter n [] e e := by
  intro tolerance context hn
  obtain ⟨value, left, hr, hl⟩ := ((h.mono hn).keeps_evaluate tolerance).exists_ok rfl
  exact ⟨value, left, hl ▸ hn, hr, by rw [hr, fill_nil]⟩

theorem FillsAfter.assign {index : Nat} (h : FillsAfter n slots innermost e) (hi : index < n)
    (name : String) :
    FillsAfter n (index :: slots) innermost (.assign (.slot name index {}) e {}) := by
  intro tolerance context hn
  obtain ⟨value, left, hl, hinnermost, he⟩ := h tolerance context hn
  refine ⟨value, left, hl, hinnermost, ?_⟩
  have hfill : fill (index :: slots) value left.values =
      fill [index] value (fill slots value left.values) := fill_append [index] slots _ _
  rw [evaluate, EStateM.run_bind, he]
  dsimp only
  rw [fillsTargets_slot hi name {} value _ (by rwa [length_fill]), hfill]
  rfl

end Expr

namespace Link

open FormulaScript.Expr

variable {names : List String} {front : List Link} {last : Link} {target source : Expr}

/-- The slots of a chain that its last operator does not read. -/
def Hidden (names : List String) (front : List Link) (last : Link) (index : Nat) : Prop :=
  index ∈ front.map (slot names) ∧ index ≠ last.slot names

/-- Assigning the value of the last variable to those before changes none that is not hidden. -/
theorem agree_fill {context : Context} (hv : context.values[last.slot names]? = some value) :
    context.Agree (Hidden names front last)
      { context with values := fill (front.map (slot names)) value context.values } where
  toShared := rfl
  length := (length_fill ..).symm
  values index hn := by
    dsimp only
    rw [fill, List.getElem?_mapIdx]
    by_cases he : index = last.slot names
    · rw [he, hv]
      simp
    · have hm : index ∉ front.map (slot names) := fun hm => hn ⟨hm, he⟩
      simp [hm]

/-- The last operator of a chain leaves the same when the variables before have been grouped into
its target as when they are assigned to afterwards. -/
theorem IsTarget.fillsAfter (ht : IsTarget names front last target) (hl : last.Fits names)
    (hs : source.Safe names.length)
    (hr : last.symbol = "=" ∨ ∀ read ∈ source.reads, ¬ Hidden names front last read.2) :
    FillsAfter names.length (front.map (slot names))
      (assigning last.symbol (last.tree names) source)
      (assigning last.symbol target source) := by
  intro tolerance context hn
  have htarget (value : Float) (left : Context) (hleft : names.length ≤ left.values.length) :
      (target.assignValue value).run left = .ok value { left with
        values := fill (front.map (slot names)) value
          (fill [last.slot names] value left.values) } := by
    rw [Safe.fillsTargets ht.derives.safe ht.isAssignable value left hleft, ht.targetSlots,
      fill_append]
  have hlast (value : Float) (left : Context) (hleft : names.length ≤ left.values.length) :
      ((last.tree names).assignValue value).run left =
        .ok value { left with values := fill [last.slot names] value left.values } :=
    fillsTargets_slot hl.slot_lt last.name {} value left hleft
  obtain ⟨value, left, hrun, hlength⟩ := ((hs.mono hn).keeps_evaluate tolerance).exists_ok rfl
  have hleft : names.length ≤ left.values.length := hlength ▸ hn
  rcases assigning_cases hl.symbol with ⟨-, hassign⟩ | ⟨op, hop, hassign⟩
  · rw [hassign, hassign]
    let after : Context := { left with values := fill [last.slot names] value left.values }
    refine ⟨value, after, (length_fill ..).symm ▸ hleft, ?_, ?_⟩
    · rw [evaluate, EStateM.run_bind, hrun]
      exact hlast value left hleft
    · rw [evaluate, EStateM.run_bind, hrun]
      exact htarget value left hleft
  · rw [hassign, hassign]
    have hne : last.symbol ≠ "=" := fun he => by
      have hall : ∀ operator ∈ Level.updates, operator.1 ≠ "=" := by decide
      exact hall _ hop he
    have hslot : last.slot names < context.values.length := Nat.lt_of_lt_of_le hl.slot_lt hn
    obtain ⟨old, hold⟩ : ∃ old, context.values[last.slot names]? = some old :=
      ⟨_, List.getElem?_eq_getElem hslot⟩
    -- the source is evaluated after the assignments to the variables before, but looks at none
    have hblind := blind_evaluate tolerance source (hr.resolve_left hne)
    obtain ⟨left', hrun', hagree⟩ := hblind.exists_ok (agree_fill hold) hrun
    have hleft' : names.length ≤ left'.values.length := hagree.length ▸ hleft
    let result := op.apply old value
    let after : Context := { left with values := fill [last.slot names] result left.values }
    refine ⟨result, after, (length_fill ..).symm ▸ hleft, ?_, ?_⟩
    · rw [evaluate, EStateM.run_bind, run_tree hold]
      dsimp only
      rw [EStateM.run_bind, hrun]
      exact hlast result left hleft
    · rw [evaluate, EStateM.run_bind, ht.run tolerance context old hn hold]
      dsimp only
      rw [EStateM.run_bind, hrun']
      dsimp only
      have hhidden (index : Nat) (hi : Hidden names front last index) :
          index ∈ front.map (slot names) ++ [last.slot names] := List.mem_append_left _ hi.1
      rw [htarget result left' hleft', ← fill_append, ← hagree.fill_eq hhidden, fill_append]

/-! ## Texts -/

variable {text : List Char}

/-- Some links in a row in front of a text. -/
def chainText (links : List Link) (text : List Char) : List Char := links.foldr Link.text text

/-- Some links in a row in front of a text, with parentheses around all that follows a link. -/
def nestedText (links : List Link) (text : List Char) : List Char :=
  links.foldr (fun link rest => link.text (Script.grouped rest)) text

theorem lexemes_chainText {links : List Link} (h : ∀ link ∈ links, link.Fits names)
    (text : List Char) :
    Token.lexemes (chainText links text) = links.flatMap lexemes ++ Token.lexemes text := by
  induction links with
  | nil => rfl
  | cons link links ih =>
    obtain ⟨hl, h⟩ := List.forall_mem_cons.1 h
    rw [chainText, List.foldr_cons, hl.lexemes_text, ← chainText, ih h, List.flatMap_cons,
      List.append_assoc]

theorem not_mem_nul_foldr {links : List Link} {wrap : List Char → List Char}
    (hw : ∀ text, '\x00' ∉ text → '\x00' ∉ wrap text) (h : ∀ link ∈ links, link.Fits names)
    (hn : '\x00' ∉ text) :
    '\x00' ∉ links.foldr (fun link rest => link.text (wrap rest)) text := by
  induction links with
  | nil => exact hn
  | cons link links ih =>
    obtain ⟨hl, h⟩ := List.forall_mem_cons.1 h
    exact hl.not_mem_nul (hw _ (ih h))

/-- The link assigns the value of a text in parentheses to its variable. -/
theorem Fits.spells_text {e : Expr} {link : Link} (h : link.Fits names)
    (hs : Spells names .assignment (Token.lexemes text) e) :
    Spells names .assignment (Token.lexemes (link.text (Script.grouped text)))
      (assigning link.symbol (link.tree names) e) := by
  have hg := hs.group
  have ht : Derives names .assignment ([] ++ [link.nameLexeme.unplaced]) (link.tree names) :=
    h.derives_name.of_operand
  rw [h.lexemes_text, Script.lexemes_grouped (closed_of_faultless hs.faultless)]
  refine ⟨List.forall_mem_append.2 ⟨link.faultless, hg.faultless⟩, ?_⟩
  rw [List.map_append]
  exact h.derives_assigning ht rfl hg.derives.disjunction_of_operand

theorem spells_chainText (hf : ∀ link ∈ front, link.Fits names) (hl : last.Fits names)
    (ht : IsTarget names front last target)
    (hs : Spells names .disjunction (Token.lexemes text) source) :
    Spells names .assignment (Token.lexemes (chainText (front ++ [last]) text))
      (assigning last.symbol target source) := by
  have hlinks : ∀ link ∈ front ++ [last], link.Fits names :=
    List.forall_mem_append.2 ⟨hf, List.forall_mem_singleton.2 hl⟩
  rw [lexemes_chainText hlinks]
  refine ⟨List.forall_mem_append.2 ⟨?_, hs.faultless⟩, ?_⟩
  · exact List.forall_mem_flatMap.2 fun link _ => link.faultless
  · have hmap : (front.flatMap lexemes).map Lexeme.unplaced = front.flatMap tokens :=
      List.map_flatMap
    have hlast : [last].flatMap lexemes = last.lexemes := List.flatMap_singleton lexemes last
    rw [List.flatMap_append, List.map_append, List.map_append, hmap, hlast]
    exact hl.derives_assigning ht.derives ht.isAssignable hs.derives

/-- Each link of the front stores the value that the rest in parentheses has. -/
theorem exists_nested (hf : ∀ link ∈ front, link.Fits names)
    (he : ∀ link ∈ front, link.symbol = "=") (hl : last.Fits names)
    (hs : Spells names .disjunction (Token.lexemes text) source) :
    ∃ nested, Spells names .assignment (Token.lexemes (nestedText (front ++ [last]) text)) nested ∧
      FillsAfter names.length (front.map (slot names))
        (assigning last.symbol (last.tree names) source) nested := by
  induction front with
  | nil =>
    have hlast := hl.spells_text ⟨hs.faultless, hs.derives.tighter rfl⟩
    exact ⟨_, hlast, hlast.derives.safe.fillsAfter_self⟩
  | cons link front ih =>
    obtain ⟨hlink, hf⟩ := List.forall_mem_cons.1 hf
    obtain ⟨helink, he⟩ := List.forall_mem_cons.1 he
    obtain ⟨nested, hn, hfills⟩ := ih hf he
    have hassign := hlink.spells_text hn
    rw [helink] at hassign
    exact ⟨_, hassign, hfills.assign hlink.slot_lt link.name⟩

end Link

namespace Expr

open Link

variable {front : List Link} {last : Link} {text : List Char}

/-- The text forms an expression that is no assignment, except within parentheses. -/
structure IsSource (names : List String) (text : List Char) (source : Expr) : Prop where
  not_mem_nul : '\x00' ∉ text
  faultless : (scan text).2 = []
  derives : Derives names .disjunction (beforeFinish (scan text).1) source

theorem IsSource.spells (h : IsSource names text source) :
    Spells names .disjunction (lexemes text) source.unplaced where
  faultless := (scan_faultless_iff h.not_mem_nul).1 h.faultless
  derives := unplaced_scan h.not_mem_nul ▸ h.derives.unplaced

def isAssignment : Expr → Bool
  | assign .. | update .. => true
  | _ => false

theorem Derives.disjunction_of_assignment (h : Derives names .assignment ts e)
    (ha : e.isAssignment = false) : Derives names .disjunction ts e := by
  cases h with
  | tighter hℓ hd =>
    cases hℓ
    exact hd
  | assign | update => cases ha
  | binary _ hop => cases hop

/-- What is parsed to a tree other than an assignment is a source. -/
theorem IsSource.of_parse {vars : Variables} (hn : '\x00' ∉ text)
    (h : (parse text vars false).expr = some source) (ha : source.isAssignment = false) :
    IsSource vars.names text source := by
  obtain ⟨e, he, hf, hg⟩ := exists_forms (isSome_parse_iff.1 (Option.isSome_of_mem h))
  cases h.symm.trans he
  rw [hg.fixed rfl] at hf
  exact ⟨hn, hf.faultless, hf.derives.disjunction_of_assignment ha⟩

theorem not_hidden {vars : Variables} (hf : ∀ link ∈ front, link.Fits vars.names)
    (hn : Named vars.names source)
    (hr : ∀ link ∈ front, link.name ≠ last.name → link.name ∉ source.reads.map (·.1)) :
    ∀ read ∈ source.reads, ¬ Hidden vars.names front last read.2 := by
  rintro read hm ⟨hfront, hne⟩
  obtain ⟨link, hlink, hslot⟩ := List.mem_map.1 hfront
  have hname : some link.name = some read.1 := by
    rw [← (hf link hlink).getElem?_slot, hslot, hn.getElem?_of_mem_reads read hm]
  have hlast : link.name ≠ last.name := by
    intro he
    rw [← hslot, Link.slot, he] at hne
    exact hne rfl
  exact hr link hlink hlast (List.mem_map.2 ⟨read, hm, (Option.some.inj hname).symm⟩)

/-- A chain of assignments is parsed, and does the same as with parentheses around all that follows
an operator, if all operators but the last are equals signs, and the last is one too or its right
operand reads none of the other variables of the chain. -/
theorem chain_eq_nested {vars : Variables} (autoAdd : Bool)
    (hf : ∀ link ∈ front, link.Fits vars.names ∧ link.symbol = "=") (hl : last.Fits vars.names)
    (hs : IsSource vars.names text source)
    (hr : last.symbol = "=" ∨
      ∀ link ∈ front, link.name ≠ last.name → link.name ∉ source.reads.map (·.1)) :
    ∃ chain nested,
      parse (chainText (front ++ [last]) text) vars autoAdd = ⟨some chain, [], vars⟩ ∧
      parse (nestedText (front ++ [last]) text) vars autoAdd = ⟨some nested, [], vars⟩ ∧
      ∀ (tolerance : Int) (context : Context), vars.names.length ≤ context.values.length →
        ∃ value left, (chain.evaluate tolerance).run context = .ok value left ∧
          (nested.evaluate tolerance).run context = .ok value left := by
  have hfits : ∀ link ∈ front, link.Fits vars.names := fun link hm => (hf link hm).1
  have hlinks : ∀ link ∈ front ++ [last], link.Fits vars.names :=
    List.forall_mem_append.2 ⟨hfits, List.forall_mem_singleton.2 hl⟩
  have hequals : ∀ link ∈ front, link.symbol = "=" := fun link hm => (hf link hm).2
  have hspells := hs.spells
  have hchain : '\x00' ∉ chainText (front ++ [last]) text :=
    not_mem_nul_foldr (fun _ h => h) hlinks hs.not_mem_nul
  have hnested : '\x00' ∉ nestedText (front ++ [last]) text :=
    not_mem_nul_foldr (fun _ h => by simp [Script.grouped, h]) hlinks hs.not_mem_nul
  -- both texts form trees of the lexemes
  obtain ⟨target, ht⟩ := exists_target hfits hequals hl
  obtain ⟨nestedTree, htree, hfills⟩ := exists_nested hfits hequals hl hspells
  obtain ⟨chain, hchain, hc⟩ := (spells_chainText hfits hl ht hspells).exists_forms hchain
  obtain ⟨nested, hnested, hn⟩ := htree.exists_forms hnested
  refine ⟨chain, nested, hchain.parse_eq autoAdd, hnested.parse_eq autoAdd, ?_⟩
  have hread : last.symbol = "=" ∨
      ∀ read ∈ source.unplaced.reads, ¬ Hidden vars.names front last read.2 := by
    rw [reads_unplaced]
    exact hr.imp_right (not_hidden hfits hs.derives.named)
  intro tolerance context hlength
  obtain ⟨value, left, -, hinnermost, hrun⟩ :=
    ht.fillsAfter hl hspells.derives.safe hread tolerance context hlength
  obtain ⟨value', left', -, hinnermost', hrun'⟩ := hfills tolerance context hlength
  cases hinnermost.symm.trans hinnermost'
  rw [← evaluate_unplaced tolerance chain, ← evaluate_unplaced tolerance nested, hc, hn]
  exact ⟨_, _, hrun, hrun'⟩

/-- The old value of the last variable is added to a random number. -/
theorem chain_eq_nested_draw :
    let vars : Variables := { names := ["a", "b", "c"] }
    let links : List Link := [⟨"a", "="⟩, ⟨"b", "+="⟩]
    let text := "c * urand(0, 1)".toList
    ∃ chain nested,
      parse (chainText links text) vars false = ⟨some chain, [], vars⟩ ∧
      parse (nestedText links text) vars false = ⟨some nested, [], vars⟩ ∧
      ∀ (tolerance : Int) (context : Context), 3 ≤ context.values.length →
        ∃ value left, (chain.evaluate tolerance).run context = .ok value left ∧
          (nested.evaluate tolerance).run context = .ok value left := by
  intro vars links text
  have ha : (Link.mk "a" "=").Fits vars.names :=
    ⟨⟨⟨'a', rfl, by decide +kernel⟩, List.forall_mem_singleton.2 rfl⟩, by decide, by decide,
      by decide⟩
  have hb : (Link.mk "b" "+=").Fits vars.names :=
    ⟨⟨⟨'b', rfl, by decide +kernel⟩, List.forall_mem_singleton.2 rfl⟩, by decide, by decide,
      by decide⟩
  obtain ⟨source, hs⟩ : ∃ source, (parse text vars false).expr = some source :=
    Option.isSome_iff_exists.1 (by decide +kernel)
  have hall : (parse text vars false).expr.all fun e =>
      !e.isAssignment && !(e.reads.map (·.1)).contains "a" := by decide +kernel
  have hsource : source.isAssignment = false ∧ "a" ∉ source.reads.map (·.1) := by
    simpa [hs] using hall
  exact chain_eq_nested false (List.forall_mem_singleton.2 ⟨ha, rfl⟩) hb
    (.of_parse (by decide) hs hsource.1) (.inr (List.forall_mem_singleton.2 fun _ => hsource.2))

/-- A last operand sees what has been assigned to a variable before, and an operator before the last
one does not combine. -/
theorem chain_ne_nested :
    let vars : Variables := { names := ["a", "b"] }
    let leaves (text : List Char) (values : List Float) : Option (List String) :=
      (parse text vars false).expr.bind fun e =>
        match (e.evaluate Number.defaultTolerance).run { random := .ofSeed 0, values } with
        | .ok value left => some ((value :: left.values).map Number.format)
        | .error .. => none
    (leaves (chainText [⟨"a", "="⟩, ⟨"b", "+="⟩] ['a']) [5.0, 1.0] = some ["2", "2", "2"] ∧
      leaves (nestedText [⟨"a", "="⟩, ⟨"b", "+="⟩] ['a']) [5.0, 1.0] = some ["6", "6", "6"]) ∧
    leaves (chainText [⟨"a", "+="⟩, ⟨"b", "="⟩] ['5']) [1.0, 0.0] = some ["5", "5", "5"] ∧
      leaves (nestedText [⟨"a", "+="⟩, ⟨"b", "="⟩] ['5']) [1.0, 0.0] = some ["6", "6", "5"] := by
  decide +kernel

end Expr

end FormulaScript
