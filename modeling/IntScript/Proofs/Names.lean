import IntScript.Proofs.Contents

/-!
# The names of a program

* `Expr.names`, `Stmt.names`, `Block.names` : the names of a tree, wherever they stand in it;
* `Block.wellNamed_iff` : a block is well-named if each of these can be written as a name;
* `IsIdentifier` : what such a name looks like, character by character (`isName_iff_isIdentifier`);
* `parse_names` : the names of a parsed program are identifiers, and a block with any other name is
  not what its text is parsed as.
-/

namespace IntScript

/-! ## Names of trees -/

mutual

/-- The names in an expression: variables and called functions. -/
def Expr.names : Expr → List String
  | .ident x => [x]
  | .lit _ => []
  | .bin _ l r => l.names ++ r.names
  | .call f args => f :: Expr.listNames args

/-- The names in arguments. -/
def Expr.listNames : List Expr → List String
  | [] => []
  | e :: es => e.names ++ Expr.listNames es

end

mutual

/-- The names in a statement: functions, their parameters, variables, and those in its
expressions. -/
def Stmt.names : Stmt → List String
  | .function f ps body => f :: ps ++ Block.names body
  | .var x none => [x]
  | .var x (some e) => x :: e.names
  | .assign x e => x :: e.names
  | .loop c body => c.names ++ Block.names body
  | .ifThen c a => c.names ++ Block.names a
  | .ifElse c a b => c.names ++ Block.names a ++ Block.names b
  | .ret e => e.names
  | .expr e => e.names

/-- The names in a block. -/
def Block.names : List Stmt → List String
  | [] => []
  | s :: b => s.names ++ Block.names b

end

mutual

theorem Expr.wellNamed_iff : ∀ e : Expr, e.WellNamed ↔ ∀ x ∈ e.names, IsName x
  | .ident x => by simp [Expr.WellNamed, Expr.names]
  | .lit _ => by simp [Expr.WellNamed, Expr.names]
  | .bin _ l r => by
    simp [Expr.WellNamed, Expr.names, Expr.wellNamed_iff l, Expr.wellNamed_iff r, or_imp, forall_and]
  | .call f args => by simp [Expr.WellNamed, Expr.names, Expr.listWellNamed_iff args]

theorem Expr.listWellNamed_iff : ∀ es : List Expr,
    Expr.ListWellNamed es ↔ ∀ x ∈ Expr.listNames es, IsName x
  | [] => by simp [Expr.ListWellNamed, Expr.listNames]
  | e :: es => by
    simp [Expr.ListWellNamed, Expr.listNames, Expr.wellNamed_iff e, Expr.listWellNamed_iff es,
      or_imp, forall_and]

end

mutual

theorem Stmt.wellNamed_iff : ∀ s : Stmt, s.WellNamed ↔ ∀ x ∈ s.names, IsName x
  | .function f ps body => by
    simp [Stmt.WellNamed, Stmt.names, Block.wellNamed_iff body, or_imp, forall_and]
  | .var x e => by
    cases e with
    | none => simp [Stmt.WellNamed, Stmt.names]
    | some e => simp [Stmt.WellNamed, Stmt.names, Expr.wellNamed_iff e]
  | .assign x e => by simp [Stmt.WellNamed, Stmt.names, Expr.wellNamed_iff e]
  | .loop c body => by
    simp [Stmt.WellNamed, Stmt.names, Expr.wellNamed_iff c, Block.wellNamed_iff body, or_imp,
      forall_and]
  | .ifThen c a => by
    simp [Stmt.WellNamed, Stmt.names, Expr.wellNamed_iff c, Block.wellNamed_iff a, or_imp,
      forall_and]
  | .ifElse c a b => by
    simp [Stmt.WellNamed, Stmt.names, Expr.wellNamed_iff c, Block.wellNamed_iff a,
      Block.wellNamed_iff b, or_imp, forall_and]
  | .ret e => by simp [Stmt.WellNamed, Stmt.names, Expr.wellNamed_iff e]
  | .expr e => by simp [Stmt.WellNamed, Stmt.names, Expr.wellNamed_iff e]

/-- A block is well-named if each name in it can be written as one. -/
theorem Block.wellNamed_iff : ∀ b : List Stmt,
    Block.WellNamed b ↔ ∀ x ∈ Block.names b, IsName x
  | [] => by simp [Block.WellNamed, Block.names]
  | s :: b => by
    simp [Block.WellNamed, Block.names, Stmt.wellNamed_iff s, Block.wellNamed_iff b, or_imp,
      forall_and]

end

/-! ## Identifiers -/

/-- A character between `a` and `z` or between `A` and `Z`. -/
def IsLetter (c : Char) : Prop := 'a' ≤ c ∧ c ≤ 'z' ∨ 'A' ≤ c ∧ c ≤ 'Z'

/-- A character between `0` and `9`. -/
def IsDigit (c : Char) : Prop := '0' ≤ c ∧ c ≤ '9'

/-- Letters, digits and underscores, not beginning with a digit, and none of the six words that mean
something else. -/
structure IsIdentifier (s : String) : Prop where
  nonempty : s ≠ ""
  chars : ∀ c ∈ s.toList, IsLetter c ∨ IsDigit c ∨ c = '_'
  first : ∀ c ∈ s.toList.head?, ¬IsDigit c
  notKeyword : s ∉ ["fun", "var", "while", "if", "else", "return"]

theorem isDigit_iff {c : Char} : c.isDigit = true ↔ IsDigit c := by
  rw [Char.isDigit, Bool.and_eq_true, decide_eq_true_eq, decide_eq_true_eq]
  rfl

theorem isAlpha_iff {c : Char} : c.isAlpha = true ↔ IsLetter c := by
  have hupper : c.isUpper = true ↔ 'A' ≤ c ∧ c ≤ 'Z' := decide_eq_true_iff
  have hlower : c.isLower = true ↔ 'a' ≤ c ∧ c ≤ 'z' := by
    change (decide (c.val ≥ 'a'.val) && decide (c.val ≤ 'z'.val)) = true ↔ _
    rw [Bool.and_eq_true, decide_eq_true_eq, decide_eq_true_eq]
    rfl
  change (c.isUpper || c.isLower) = true ↔ _
  rw [Bool.or_eq_true, hupper, hlower, or_comm]
  rfl

theorem isNameStart_iff {c : Char} : isNameStart c = true ↔ IsLetter c ∨ c = '_' := by
  rw [isNameStart, Bool.or_eq_true, isAlpha_iff, decide_eq_true_eq]

theorem isNameChar_iff {c : Char} : isNameChar c = true ↔ IsLetter c ∨ IsDigit c ∨ c = '_' := by
  rw [isNameChar, Char.isAlphanum, Bool.or_eq_true, Bool.or_eq_true, isAlpha_iff, isDigit_iff,
    decide_eq_true_eq, or_assoc]

/-- No character is a digit and one that a word begins with. -/
theorem not_isDigit_of_isNameStart {c : Char} (h : isNameStart c = true) : ¬IsDigit c := by
  rw [← isDigit_iff]
  intro hd
  rw [isNameStart_of_isDigit hd] at h
  cases h

/-- A word begins with a letter or underscore, and goes on with these and digits. -/
theorem isWord_iff {cs : List Char} : isWord cs = true ↔
    cs ≠ [] ∧ (∀ c ∈ cs, IsLetter c ∨ IsDigit c ∨ c = '_') ∧ ∀ c ∈ cs.head?, ¬IsDigit c := by
  cases cs with
  | nil => simp [isWord]
  | cons c cs =>
    rw [isWord, Bool.and_eq_true, List.all_eq_true]
    constructor
    · rintro ⟨hc, hcs⟩
      refine ⟨List.cons_ne_nil c cs, ?_, ?_⟩
      · refine List.forall_mem_cons.2 ⟨?_, fun d hd => isNameChar_iff.1 (hcs d hd)⟩
        exact isNameChar_iff.1 (isNameChar_of_isNameStart hc)
      · rintro _ ⟨rfl⟩
        exact not_isDigit_of_isNameStart hc
    · rintro ⟨-, hall, hfirst⟩
      obtain ⟨hc, hcs⟩ := List.forall_mem_cons.1 hall
      refine ⟨?_, fun d hd => isNameChar_iff.2 (hcs d hd)⟩
      rcases hc with hc | hc | hc
      · exact isNameStart_iff.2 (.inl hc)
      · exact absurd hc (hfirst c rfl)
      · exact isNameStart_iff.2 (.inr hc)

/-- What can be written as a name is an identifier. -/
theorem isName_iff_isIdentifier {s : String} : IsName s ↔ IsIdentifier s := by
  have hne : s.toList ≠ [] ↔ s ≠ "" := by rw [Ne, String.toList_eq_nil_iff]
  rw [IsName, isWord_iff, hne]
  exact ⟨fun ⟨⟨h, h', h''⟩, hk⟩ => ⟨h, h', h'', hk⟩, fun ⟨h, h', h'', hk⟩ => ⟨⟨h, h', h''⟩, hk⟩⟩

/-! ## Programs -/

/-- The names of a parsed program can be written as names. -/
theorem wellNamed_of_parse {s : String} {b : Block} (h : parse s = .ok b) : Block.WellNamed b :=
  (parse_reads h).wellNamed b rfl

/-- **Names**: each name in a parsed program, at any depth, is an identifier. So a block in which any
other name occurs is not what its text is parsed as. -/
theorem parse_names :
    (∀ (s : String) (b : Block), parse s = .ok b → ∀ x ∈ Block.names b, IsIdentifier x) ∧
      ∀ b : Block, (∃ x ∈ Block.names b, ¬IsIdentifier x) → parse (Block.render b) ≠ .ok b := by
  have hnames : ∀ (s : String) (b : Block), parse s = .ok b →
      ∀ x ∈ Block.names b, IsIdentifier x := fun s b h x hx =>
    isName_iff_isIdentifier.1 ((Block.wellNamed_iff b).1 (wellNamed_of_parse h) x hx)
  refine ⟨hnames, ?_⟩
  rintro b ⟨x, hx, hbad⟩ h
  exact hbad (hnames _ b h x hx)

/-- Names that begin like a keyword, at each kind of place, and a variable that is named like one. -/
theorem parse_names_keywords :
    let s := "fun iff(var_, _0) { else1 = fun0(returned) }"
    let b : Block := [.function "iff" ["var_", "_0"]
      [.assign "else1" (.call "fun0" [.ident "returned"])]]
    let b' : Block := [.expr (.ident "if")]
    (parse s = .ok b ∧ Block.names b = ["iff", "var_", "_0", "else1", "fun0", "returned"] ∧
      ∀ x ∈ Block.names b, IsIdentifier x) ∧
    (∃ x ∈ Block.names b', ¬IsIdentifier x) ∧ parse (Block.render b') ≠ .ok b' := by
  intro s b b'
  have hs : parse s = .ok b := by decide +kernel
  have hb' : ∃ x ∈ Block.names b', ¬IsIdentifier x :=
    ⟨"if", List.mem_singleton.2 rfl, fun h => h.notKeyword (by decide)⟩
  exact ⟨⟨hs, rfl, parse_names.1 s b hs⟩, hb', parse_names.2 b' hb'⟩

end IntScript
