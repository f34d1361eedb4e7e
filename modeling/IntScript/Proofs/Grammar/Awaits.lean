import IntScript.Proofs.Prefix

/-!
# What a text can go on with

A place awaits lexemes of some kind if the text in front of it is the beginning of a block that goes
on with any of them, also when the text ends there.

* `Derives.unjoin`, `Unjoins P` : a phrase at the end of a text is one, and so for other lexemes;
* `Writable P` : they can be written down, too;
* `Open P pre` : lexemes that are gone on with by any in `P`, and by a text, are a block;
* `Awaits text P c` : the place `c` awaits lexemes in `P`;
* `Awaits.complete`, `Awaits.step` : it awaits what can be completed to lexemes in `P`, and the
  place behind a part of them awaits the other part.
-/

namespace IntScript

open Lexeme Peg

variable {p : Phrase} {P Q : List Lexeme → Prop} {ls ls' pre : List Lexeme} {l : Lexeme}
  {c d : Cursor} {text : List Char}

/-! ## Phrases at the end of a text -/

@[simp] theorem unjoin_inParens (ls : List Lexeme) : unjoin (inParens ls) = inParens ls :=
  unjoin_append (List.cons_ne_nil _ _) _

@[simp] theorem unjoin_inBraces (ls : List Lexeme) : unjoin (inBraces ls) = inBraces ls :=
  unjoin_append (List.cons_ne_nil _ _) _

/-- A phrase at the end of a text is one. -/
theorem Derives.unjoin (h : Derives p ls) : Derives p (unjoin ls) := by
  induction h with
  | name hx => exact .name hx
  | number hd => exact .number hd
  | negative hd => exact .negative hd
  | bracket h =>
    rw [unjoin_inParens]
    exact .bracket h
  | call hf h =>
    rw [unjoin_cons (by simp [inParens]), unjoin_inParens]
    exact .call hf h
  | single _ ih => exact .single ih
  | operation hl hr _ ih =>
    have hne := hr.ne_nil
    rw [unjoin_append (List.cons_ne_nil _ _), unjoin_cons (by simpa using hne)]
    exact .operation hl ih
  | oneItem _ ih => exact .oneItem ih
  | moreItems h hs _ ih =>
    have hne := hs.ne_nil
    rw [unjoin_append (List.cons_ne_nil _ _), unjoin_cons (by simpa using hne)]
    exact .moreItems h ih
  | noArgs => exact .noArgs
  | someArgs _ ih => exact .someArgs ih
  | function hf hp hb =>
    rw [unjoin_append (by simp [inBraces]), unjoin_inBraces]
    exact .function hf hp hb
  | declare hx => exact .declare hx
  | define hx h ih =>
    have hne := h.ne_nil
    rw [unjoin_cons (List.cons_ne_nil _ _), unjoin_cons (List.cons_ne_nil _ _),
      unjoin_cons (by simpa using hne)]
    exact .define hx ih
  | loop hc hb =>
    rw [unjoin_append (by simp [inBraces]), unjoin_inBraces]
    exact .loop hc hb
  | ifThen hc hb =>
    rw [unjoin_append (by simp [inBraces]), unjoin_inBraces]
    exact .ifThen hc hb
  | ifElse hc hb hb' =>
    rw [unjoin_append (List.cons_ne_nil _ _), unjoin_cons (by simp [inBraces]), unjoin_inBraces]
    exact .ifElse hc hb hb'
  | ret h ih =>
    have hne := h.ne_nil
    rw [unjoin_cons (by simpa using hne)]
    exact .ret ih
  | assign hx h ih =>
    have hne := h.ne_nil
    rw [unjoin_cons (List.cons_ne_nil _ _), unjoin_cons (by simpa using hne)]
    exact .assign hx ih
  | expr _ ih => exact .expr ih
  | nil => exact .nil
  | @cons ls ls' h hs ih ihs =>
    by_cases hls : ls' = []
    · rw [hls, List.append_nil, ← List.append_nil (IntScript.unjoin ls)]
      exact .cons ih .nil
    · rw [unjoin_append hls]
      exact .cons h ihs

/-- Lexemes in `P` remain so when the text ends behind them. -/
def Unjoins (P : List Lexeme → Prop) : Prop := ∀ ls, P ls → P (unjoin ls)

/-- The word alone. -/
def IsWord (k : String) : List Lexeme → Prop := WordThen k (· = [])

namespace Unjoins

theorem derives : Unjoins (Derives p) := fun _ h => h.unjoin

theorem nil : Unjoins (· = []) := fun _ h => unjoin_eq_nil.2 h

theorem both (hP : Unjoins P) (hQ : Unjoins Q) : Unjoins (Both P Q) := by
  rintro _ ⟨ls₁, ls₂, h₁, h₂, rfl⟩
  by_cases hls : ls₂ = []
  · rw [hls, List.append_nil]
    exact ⟨_, [], hP _ h₁, hls ▸ h₂, (List.append_nil _).symm⟩
  · rw [unjoin_append hls]
    exact ⟨_, _, h₁, hQ _ h₂, rfl⟩

theorem maybe (hP : Unjoins P) : Unjoins (Maybe P) := by
  rintro ls (rfl | h)
  · exact .inl rfl
  · exact .inr (hP ls h)

theorem many (hP : Unjoins P) : Unjoins (IsMany P) := by
  rintro _ ⟨lss, hlss, rfl⟩
  induction lss with
  | nil => exact .nil P
  | cons ls lss ih =>
    have ih := ih fun ls' h => hlss ls' (by simp [h])
    have h := hlss ls (by simp)
    rw [List.flatten_cons]
    by_cases hnil : lss.flatten = []
    · rw [hnil, List.append_nil, ← List.append_nil (unjoin ls)]
      exact (IsMany.nil P).cons (hP ls h)
    · rw [unjoin_append hnil]
      exact ih.cons h

theorem token_then {t : Token} (hQ : Unjoins Q) : Unjoins (t.Then Q) := by
  rintro _ ⟨ls, h, rfl⟩
  by_cases hls : ls = []
  · subst hls
    exact ⟨[], h, rfl⟩
  · rw [unjoin_cons hls]
    exact ⟨_, hQ ls h, rfl⟩

theorem wordThen {k : String} (hQ : Unjoins Q) : Unjoins (WordThen k Q) := by
  rintro _ ⟨j, ls, h, rfl⟩
  by_cases hls : ls = []
  · subst hls
    exact ⟨false, [], h, rfl⟩
  · rw [unjoin_cons hls]
    exact ⟨j, _, hQ ls h, rfl⟩

theorem isWord {k : String} : Unjoins (IsWord k) := wordThen nil

theorem isIdent : Unjoins IsIdent := by
  rintro _ ⟨x, j, hx, rfl⟩
  exact ⟨x, false, hx, rfl⟩

theorem isOp : Unjoins IsOp := by
  rintro _ ⟨o, j, rfl⟩
  exact ⟨o, false, rfl⟩

theorem inParens : Unjoins (InParens P) := by
  rintro _ ⟨ls, h, rfl⟩
  exact ⟨ls, h, unjoin_inParens ls⟩

theorem inBraces : Unjoins InBraces := by
  rintro _ ⟨ls, h, rfl⟩
  exact ⟨ls, h, unjoin_inBraces ls⟩

end Unjoins

/-- Lexemes in `P` can be written down, and remain in `P` when the text ends behind them. -/
structure Writable (P : List Lexeme → Prop) : Prop where
  unjoins : Unjoins P
  sample : ∃ s, P (lexemes s)

namespace Writable

theorem both (hP : Writable P) (hQ : Writable Q) : Writable (Both P Q) where
  unjoins := hP.unjoins.both hQ.unjoins
  sample := by
    obtain ⟨s, hs⟩ := hP.sample
    obtain ⟨t, ht⟩ := hQ.sample
    exact ⟨s ++ '\n' :: t, _, _, hs, ht, lexemes_append_line rfl s t⟩

theorem maybe (hP : Writable P) : Writable (Maybe P) :=
  ⟨hP.unjoins.maybe, [], .inl lexemes_nil⟩

theorem many (hP : Writable P) : Writable (IsMany P) :=
  ⟨hP.unjoins.many, [], lexemes_nil ▸ .nil P⟩

theorem wordThen {k : String} (hk : k ∈ keywords) (hQ : Writable Q) : Writable (WordThen k Q) where
  unjoins := hQ.unjoins.wordThen
  sample := by
    obtain ⟨s, hs⟩ := hQ.sample
    have hword : ∀ k ∈ keywords, lexemes k.toList = [⟨.word k, false⟩] := by decide +kernel
    exact ⟨k.toList ++ '\n' :: s, false, _, hs, by rw [lexemes_append_line rfl, hword k hk]; rfl⟩

end Writable

/-! ## Beginnings of blocks -/

/-- Gone on with by any lexemes in `P`, and behind these by a text, the lexemes are a block. -/
def Open (P : List Lexeme → Prop) (pre : List Lexeme) : Prop :=
  ∃ w, ∀ ls, P ls → Linked (pre ++ ls ++ lexemes w) → Derives .block (pre ++ ls ++ lexemes w)

namespace Open

/-- Lexemes that a text completes to lexemes in `Q`. -/
theorem complete (h : Open Q pre) (s : List Char)
    (hPQ : ∀ ls rest, Linked (ls ++ lexemes s ++ rest) → P ls → Q (ls ++ lexemes s)) :
    Open P pre := by
  obtain ⟨w, hw⟩ := h
  refine ⟨s ++ '\n' :: w, fun ls hls hl => ?_⟩
  rw [lexemes_append_line rfl, ← List.append_assoc, List.append_assoc pre] at hl ⊢
  refine hw _ (hPQ ls (lexemes w) ?_ hls) hl
  rw [List.append_assoc pre] at hl
  exact hl.right

/-- Some of the lexemes in `Q`. -/
theorem mono (h : Open Q pre) (hPQ : ∀ ls rest, Linked (ls ++ rest) → P ls → Q ls) :
    Open P pre := by
  refine h.complete [] fun ls rest hl hls => ?_
  rw [lexemes_nil, List.append_nil] at hl ⊢
  exact hPQ ls rest hl hls

theorem append (h : Open (Both P Q) pre) (hls : P ls) : Open Q (pre ++ ls) := by
  obtain ⟨w, hw⟩ := h
  refine ⟨w, fun ls' hls' hl => ?_⟩
  rw [List.append_assoc pre] at hl ⊢
  exact hw _ ⟨ls, ls', hls, hls', rfl⟩ hl

end Open

/-! ## Places -/

/-- The place awaits lexemes in `P`: the lexemes in front of it are the beginning of a block that
goes on with any of them, and so are those of the text that ends there. -/
structure Awaits (text : List Char) (P : List Lexeme → Prop) (c : Cursor) : Prop where
  settled : c.Settled
  goes : ∃ pre, (Cursor.start text).Passes pre c ∧ Open P pre ∧ Open P (unjoin pre)

namespace Awaits

/-- The text that ends at the place. -/
theorem ends (h : Awaits text P c) : Open P (lexemes (text.take c.offset)) := by
  obtain ⟨pre, hpre, -, hend⟩ := h.goes
  exact hpre.lexemes_take ▸ hend

/-- What a text completes to lexemes that are awaited is awaited. -/
theorem complete (h : Awaits text Q c) (s : List Char)
    (hPQ : ∀ ls rest, Linked (ls ++ lexemes s ++ rest) → P ls → Q (ls ++ lexemes s)) :
    Awaits text P c := by
  obtain ⟨pre, hpre, hopen, hend⟩ := h.goes
  exact ⟨h.settled, pre, hpre, hopen.complete s hPQ, hend.complete s hPQ⟩

/-- Some of what is awaited is awaited. -/
theorem mono (h : Awaits text Q c) (hPQ : ∀ ls rest, Linked (ls ++ rest) → P ls → Q ls) :
    Awaits text P c := by
  obtain ⟨pre, hpre, hopen, hend⟩ := h.goes
  exact ⟨h.settled, pre, hpre, hopen.mono hPQ, hend.mono hPQ⟩

/-- Behind a part of what is awaited, the other part is awaited. -/
theorem step (h : Awaits text (Both P Q) c) (hP : Unjoins P)
    (hl : c.Passes ls d) (hls : P ls) : Awaits text Q (grammar.afterLayout false d) := by
  obtain ⟨pre, hpre, hopen, hend⟩ := h.goes
  refine ⟨afterLayout_settled d, pre ++ ls, (hpre.trans hl).behind, hopen.append hls, ?_⟩
  by_cases hne : ls = []
  · subst hne
    have hend' := hend.append hls
    rwa [List.append_nil] at hend' ⊢
  · rw [unjoin_append hne]
    exact hopen.append (hP ls hls)

end Awaits

end IntScript
