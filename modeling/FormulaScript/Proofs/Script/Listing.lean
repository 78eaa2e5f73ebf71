import FormulaScript.Proofs.Script.Endings
import FormulaScript.Proofs.Script.Lines

/-!
# Listings

A block can be written with one piece on each line: a statement, a keyword with its condition, an
`else` or a brace. Each line is then a unit of the script, so the block structure is read off from
the lines whatever the texts in them are.
-/

namespace FormulaScript.Script

open Text

/-! ## Lines -/

/-- A word in front of a condition or a block. -/
abbrev Keyword := { word : String // word ∈ keywords }

/-- A line of a listing. -/
inductive Line
  | statement (text : List Char)
  | header (word : Keyword) (condition : List Char)
  | otherwise
  | opening
  | closing

namespace Line

/-- The line as it is written. -/
def text : Line → List Char
  | statement text => text ++ [';']
  | header word condition => word.1.toList ++ " (".toList ++ condition ++ [')']
  | otherwise => "else".toList
  | opening => openingBrace
  | closing => closingBrace

/-- The text of the unit that the line is read as. -/
def unit : Line → List Char
  | statement text => squeeze false (trimLeft text) ++ [';']
  | header word condition => word.1.toList ++ ([' '] ++ '(' :: squeeze false condition) ++ [')']
  | otherwise => "else".toList
  | opening => openingBrace
  | closing => closingBrace

/-- The text that the line holds is plain. -/
def Plain : Line → Prop
  | statement text => Script.Plain text
  | header _ condition => Script.Plain condition
  | _ => True

end Line

/-- A line with the lines of a block in braces after it, and what comes next. -/
def Line.braces (line : Line) (body next : List Line) : List Line :=
  line :: .opening :: body ++ .closing :: next

mutual

/-- The lines of a block. -/
def Block.listing : Block → List Line
  | .done => []
  | .equation text rest => .statement text :: rest.listing
  | .branch condition yes tail rest =>
    (Line.header ⟨"if", by decide⟩ condition).braces yes.listing (tail.listing ++ rest.listing)
  | .loop condition body rest =>
    (Line.header ⟨"while", by decide⟩ condition).braces body.listing rest.listing

def Tail.listing : Tail → List Line
  | .nothing => []
  | .otherwise block => Line.otherwise.braces block.listing []
  | .elseIf condition yes tail =>
    (Line.header ⟨"else if", by decide⟩ condition).braces yes.listing tail.listing

end

/-- The text holds the lines, each but perhaps the last with a line feed at its end. -/
def Lists (lines : List Line) (text : List Char) : Prop :=
  text = lines.flatMap (·.text ++ ['\n']) ∨ text ++ ['\n'] = lines.flatMap (·.text ++ ['\n'])

/-- The units of lines, numbered from a line on. -/
def numbered (n : Nat) (lines : List Line) : List SourceUnit :=
  (lines.zipIdx n).map fun (line, n) => ⟨n, line.unit⟩

@[simp] theorem numbered_nil (n : Nat) : numbered n [] = [] := rfl

@[simp] theorem numbered_cons (n : Nat) (line : Line) (lines : List Line) :
    numbered n (line :: lines) = ⟨n, line.unit⟩ :: numbered (n + 1) lines := rfl

@[simp] theorem numbered_append (n : Nat) (lines lines' : List Line) :
    numbered n (lines ++ lines') = numbered n lines ++ numbered (n + lines.length) lines' := by
  simp [numbered, List.zipIdx_append]

theorem numbered_braces (n : Nat) (line : Line) (body next : List Line) :
    numbered n (line.braces body next) =
      ⟨n, line.unit⟩ :: ⟨n + 1, openingBrace⟩ :: numbered (n + 2) body ++
        ⟨n + 2 + body.length, closingBrace⟩ :: numbered (n + 2 + body.length + 1) next := by
  rw [Line.braces, List.cons_append, List.cons_append, numbered_cons, numbered_cons,
    numbered_append, numbered_cons]
  rfl

theorem numbered_braces_append (n : Nat) (line : Line) (body next : List Line)
    (rest : List SourceUnit) :
    numbered n (line.braces body next) ++ rest =
      ⟨n, line.unit⟩ :: ⟨n + 1, openingBrace⟩ :: numbered (n + 2) body ++
        ⟨n + 2 + body.length, closingBrace⟩ ::
          (numbered (n + 2 + body.length + 1) next ++ rest) := by
  rw [numbered_braces, List.append_assoc]
  rfl

theorem forall_mem_braces {p : Line → Prop} {line : Line} {body next : List Line}
    (h : ∀ other ∈ line.braces body next, p other) :
    p line ∧ (∀ other ∈ body, p other) ∧ ∀ other ∈ next, p other := by
  obtain ⟨hline, h⟩ := List.forall_mem_cons.1 h
  obtain ⟨-, h⟩ := List.forall_mem_cons.1 h
  obtain ⟨hbody, h⟩ := List.forall_mem_append.1 h
  exact ⟨hline, hbody, (List.forall_mem_cons.1 h).2⟩

/-! ## Units -/

theorem push_keyword (h : word ∈ keywords) :
    push word.toList.reverse ' ' = ' ' :: word.toList.reverse := by
  have hall : ∀ word ∈ keywords, push word.toList.reverse ' ' = ' ' :: word.toList.reverse := by
    decide
  exact hall word h

theorem unitsFrom_line {line : Line} (h : line.Plain) (n : Nat) (rest : List Char) :
    unitsFrom .code [] n (line.text ++ '\n' :: rest) =
      ⟨n, line.unit⟩ :: unitsFrom .code [] (n + 1) rest := by
  have hnil (n : Nat) : flush n [] = [] := rfl
  cases line with
  | statement text =>
    have hp : Script.Plain text := h
    have hf := flush_cons (List.forall_mem_nil _) (by decide : isBlank ';' = false) n
      (squeeze true text)
    rw [trimLeft_squeeze hp.blanks] at hf
    rw [Line.text, List.append_assoc, List.singleton_append, unitsFrom_run hp.bare (by simp),
      unitsFrom_semicolon, foldl_push hp.blanks, unitsFrom_newline, hnil, List.nil_append]
    exact congrArg (· ++ unitsFrom .code [] (n + 1) rest) hf
  | header word condition =>
    obtain ⟨word, hk⟩ := word
    have hp : Script.Plain condition := h
    have hf := flush_cons (List.forall_mem_nil _) (by decide : isBlank ')' = false) n
      (word.toList ++ ([' '] ++ '(' :: squeeze false condition))
    rw [trimLeft_keyword hk, List.append_nil] at hf
    have ht : (Line.header ⟨word, hk⟩ condition).text ++ '\n' :: rest =
        word.toList ++ ' ' :: ('(' :: condition ++ ')' :: '\n' :: rest) := by
      simp [Line.text]
    have hu : ')' :: (squeeze false condition).reverse ++ '(' :: ' ' :: word.toList.reverse =
        ')' :: (word.toList ++ ([' '] ++ '(' :: squeeze false condition)).reverse := by
      simp
    have hc : ' ' ∉ structural ∧ ' ' ≠ '/' := by decide
    rw [ht, unitsFrom_keyword hk, unitsFrom_cons hc.1 fun he => absurd he hc.2, List.append_nil,
      push_keyword hk, unitsFrom_condition hp, unitsFrom_newline, hu, hf]
    rfl
  | otherwise =>
    have hk : "else" ∈ keywords := by decide
    have hf := flush_keyword hk (List.forall_mem_nil _) n
    rw [Line.text, unitsFrom_keyword hk, unitsFrom_newline, hf]
    rfl
  | opening =>
    rw [Line.text, openingBrace, List.singleton_append, unitsFrom_opening, unitsFrom_newline, hnil]
    rfl
  | closing =>
    rw [Line.text, closingBrace, List.singleton_append, unitsFrom_closing, unitsFrom_newline, hnil]
    rfl

theorem unitsFrom_lines {lines : List Line} (h : ∀ line ∈ lines, line.Plain) (n : Nat) :
    unitsFrom .code [] n (lines.flatMap (·.text ++ ['\n'])) = numbered n lines := by
  induction lines generalizing n with
  | nil =>
    rw [List.flatMap_nil, unitsFrom]
    rfl
  | cons line lines ih =>
    obtain ⟨hl, h⟩ := List.forall_mem_cons.1 h
    rw [List.flatMap_cons, List.append_assoc, List.singleton_append, unitsFrom_line hl, ih h,
      numbered_cons]

/-- A line feed at the end of a script changes nothing. -/
theorem units_newline (script : List Char) : units (script ++ ['\n']) = units script := by
  obtain ⟨us, last, pending, line, h⟩ := exists_ending .code [] 1 script
  have hu : units script = us ++ flush line pending := h.units
  have hu' : units (script ++ ['\n']) = us ++ unitsFrom last pending line ['\n'] :=
    h.append '\n' [] (by decide) (by decide)
  have hnil : flush (line + 1) [] = [] := rfl
  rw [hu, hu', unitsFrom_newline, unitsFrom, hnil, List.append_nil]

theorem Lists.units {lines : List Line} {text : List Char} (h : Lists lines text)
    (hp : ∀ line ∈ lines, line.Plain) : Script.units text = numbered 1 lines := by
  have hlines : Script.units (lines.flatMap (·.text ++ ['\n'])) = numbered 1 lines :=
    unitsFrom_lines hp 1
  rcases h with rfl | h
  · exact hlines
  · rw [← units_newline, h, hlines]

/-! ## Blocks -/

/-- A keyword and its condition share a line. -/
theorem headed_line (word : Keyword) (condition : List Char) (n : Nat) :
    Headed word.1 (squeeze false condition) [⟨n, (Line.header word condition).unit⟩] :=
  .joined n (List.forall_mem_singleton.2 (by decide))

mutual

/-- The units of the lines of a block are units of the block. -/
theorem Block.cut_listing (block : Block) (n : Nat) : block.Cut (numbered n block.listing) := by
  cases block with
  | done => exact .done
  | equation text rest => exact .equation n (rest.cut_listing (n + 1))
  | branch condition yes tail rest =>
    rw [Block.listing, numbered_braces, numbered_append]
    have hh := headed_line ⟨"if", by decide⟩ condition n
    exact .branch _ _ hh (yes.cut_listing _) (tail.cut_listing _) (rest.cut_listing _)
  | loop condition body rest =>
    rw [Block.listing, numbered_braces]
    have hh := headed_line ⟨"while", by decide⟩ condition n
    exact .loop _ _ hh (body.cut_listing _) (rest.cut_listing _)

theorem Tail.cut_listing (tail : Tail) (n : Nat) : tail.Cut (numbered n tail.listing) := by
  cases tail with
  | nothing => exact .nothing
  | otherwise block =>
    rw [Tail.listing, numbered_braces]
    exact .otherwise n _ _ (block.cut_listing _)
  | elseIf condition yes tail =>
    rw [Tail.listing, numbered_braces]
    have hh := headed_line ⟨"else if", by decide⟩ condition n
    exact .elseIf _ _ hh (yes.cut_listing _) (tail.cut_listing _)

end

end FormulaScript.Script
