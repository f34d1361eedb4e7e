import IntScript.Tree

/-!
# What a program consists of

* `Expr.parts`, `Stmt.parts`, `Block.parts` : an expression and the expressions in it, a statement
  and the statements in it, the statements of a block at any depth;
* `Stmt.exprs`, `Block.exprs` : the expressions in what a statement itself evaluates, and in a block
  at any depth;
* `Stmt.ownParts`, `Block.ownParts`, `Block.ownExprs` : the same without the bodies of functions;
* `Block.parts_subset`, `Stmt.exprs_subset` : what a part of a block consists of is in the block.
-/

namespace IntScript

/-! ## Expressions -/

mutual

/-- The expression and all expressions in it. -/
def Expr.parts : Expr → List Expr
  | .ident x => [.ident x]
  | .lit v => [.lit v]
  | .bin o l r => .bin o l r :: (l.parts ++ r.parts)
  | .call f args => .call f args :: Expr.listParts args

/-- The parts of expressions. -/
def Expr.listParts : List Expr → List Expr
  | [] => []
  | e :: es => e.parts ++ Expr.listParts es

end

theorem Expr.self_mem_parts (e : Expr) : e ∈ e.parts := by
  cases e <;> simp [Expr.parts]

/-! ## Statements -/

mutual

/-- The statement and all statements in it, also those in the bodies of functions. -/
def Stmt.parts : Stmt → List Stmt
  | .function f ps b => .function f ps b :: Block.parts b
  | .var x e => [.var x e]
  | .assign x e => [.assign x e]
  | .loop c b => .loop c b :: Block.parts b
  | .ifThen c a => .ifThen c a :: Block.parts a
  | .ifElse c a b => .ifElse c a b :: (Block.parts a ++ Block.parts b)
  | .ret e => [.ret e]
  | .expr e => [.expr e]

/-- The statements of a block at any depth. -/
def Block.parts : List Stmt → List Stmt
  | [] => []
  | s :: b => s.parts ++ Block.parts b

end

/-- The expressions in what the statement itself evaluates, those of its bodies left out. -/
def Stmt.exprs : Stmt → List Expr
  | .function _ _ _ | .var _ none => []
  | .var _ (some e) | .assign _ e | .loop e _ | .ifThen e _ | .ifElse e _ _ | .ret e
  | .expr e => e.parts

/-- The expressions of a block at any depth. -/
def Block.exprs (b : Block) : List Expr := (Block.parts b).flatMap Stmt.exprs

theorem Stmt.self_mem_parts (s : Stmt) : s ∈ s.parts := by
  cases s <;> simp [Stmt.parts]

/-! ## Parts of parts -/

/-- The parts of a statement are itself and those of its bodies. -/
theorem subset_of_mem_cons {s t : Stmt} {inner : List Stmt} (hs : s.parts = s :: inner)
    (hi : t ∈ inner → t.parts ⊆ inner) (h : t ∈ s.parts) : t.parts ⊆ s.parts := by
  rw [hs, List.mem_cons] at h
  rcases h with rfl | h
  · exact fun _ h => h
  · rw [hs]
    exact List.Subset.trans (hi h) (List.subset_cons_self _ _)

/-- The parts of one of two blocks are parts of both together. -/
theorem subset_of_mem_append {t : Stmt} {l r : List Stmt} (hl : t ∈ l → t.parts ⊆ l)
    (hr : t ∈ r → t.parts ⊆ r) (h : t ∈ l ++ r) : t.parts ⊆ l ++ r := by
  rcases List.mem_append.1 h with h | h
  · exact List.Subset.trans (hl h) (List.subset_append_left _ _)
  · exact List.Subset.trans (hr h) (List.subset_append_right _ _)

mutual

theorem Stmt.parts_subset : ∀ {s t : Stmt}, t ∈ s.parts → t.parts ⊆ s.parts
  | .function _ _ b, _, h => subset_of_mem_cons rfl (Block.parts_subset b) h
  | .loop _ b, _, h => subset_of_mem_cons rfl (Block.parts_subset b) h
  | .ifThen _ a, _, h => subset_of_mem_cons rfl (Block.parts_subset a) h
  | .ifElse _ a b, _, h =>
    subset_of_mem_cons rfl (subset_of_mem_append (Block.parts_subset a) (Block.parts_subset b)) h
  | .var _ _, _, h | .assign _ _, _, h | .ret _, _, h | .expr _, _, h =>
    subset_of_mem_cons rfl (fun h => nomatch h) h

/-- The parts of a part of a block are parts of the block. -/
theorem Block.parts_subset : ∀ (b : List Stmt) {t : Stmt}, t ∈ Block.parts b →
    t.parts ⊆ Block.parts b
  | s :: b, _, h => subset_of_mem_append (Stmt.parts_subset (s := s)) (Block.parts_subset b) h

end

/-- What a part of a block evaluates is in the block. -/
theorem Stmt.exprs_subset {b : Block} {s : Stmt} (h : s ∈ Block.parts b) :
    s.exprs ⊆ Block.exprs b :=
  fun _ he => List.mem_flatMap.2 ⟨s, h, he⟩

/-! ## Own parts -/

mutual

/-- The statement and the statements in it, except those in the bodies of functions. -/
def Stmt.ownParts : Stmt → List Stmt
  | .function f ps b => [.function f ps b]
  | .var x e => [.var x e]
  | .assign x e => [.assign x e]
  | .loop c b => .loop c b :: Block.ownParts b
  | .ifThen c a => .ifThen c a :: Block.ownParts a
  | .ifElse c a b => .ifElse c a b :: (Block.ownParts a ++ Block.ownParts b)
  | .ret e => [.ret e]
  | .expr e => [.expr e]

/-- The statements of a block at any depth, except those in the bodies of functions. -/
def Block.ownParts : List Stmt → List Stmt
  | [] => []
  | s :: b => s.ownParts ++ Block.ownParts b

end

theorem Stmt.self_mem_ownParts (s : Stmt) : s ∈ s.ownParts := by
  cases s <;> simp [Stmt.ownParts]

/-- The expressions of a block, except those in the bodies of functions. -/
def Block.ownExprs (b : Block) : List Expr := (Block.ownParts b).flatMap Stmt.exprs

end IntScript
