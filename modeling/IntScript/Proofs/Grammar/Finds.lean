import IntScript.Proofs.Grammar.Words

/-!
# Matches in terms of lexemes

* `Finds x ls F Q` : in front of lexemes in `F`, the expression `x` matches the lexemes `ls`, and
  the nodes of the match are in `Q`;
* `Misses x F` : the expression `x` matches nothing where the lexemes are in `F`;
* `Finds.seq`, `Finds.token`, `Finds.many_cons`, ... : a rule for each form of expression.
-/

namespace IntScript

open Peg

/-- Where the lexemes are `ls` and others in `F` behind them, the expression matches just `ls`, and
the nodes are in `Q`. -/
def Finds (x : Peg Rule) (ls : List Lexeme) (F : List Lexeme → Prop)
    (Q : List (Node Rule) → Prop) : Prop :=
  ∀ c rest, c.Settled → lexemes c.rest = ls ++ rest → F rest →
    ∃ d ns, grammar.Parses false x c (some (d, ns)) ∧ lexemes d.rest = rest ∧ Q ns

/-- Where the lexemes are in `F`, the expression matches nothing. -/
def Misses (x : Peg Rule) (F : List Lexeme → Prop) : Prop :=
  ∀ c, c.Settled → F (lexemes c.rest) → grammar.Parses false x c none

variable {x y : Peg Rule} {l : Lexeme} {ls ls' : List Lexeme} {F G : List Lexeme → Prop}
  {P Q : List (Node Rule) → Prop}

/-- A match of a rule is one node. -/
theorem eq_of_parses_rule {a : Bool} {r : Rule} {c d : Cursor} {ns : List (Node Rule)}
    (h : grammar.Parses a (.rule r) c (some (d, ns))) : ∃ ps, ns = [.mk r c d ps] := by
  cases h with
  | rule _ ho =>
    obtain ⟨q, -, hq⟩ := Option.map_eq_some_iff.1 ho.symm
    obtain ⟨rfl, rfl⟩ := Prod.mk.inj hq
    exact ⟨_, rfl⟩

/-- Outside atomic rules, a rule matches what its body does. -/
theorem parses_rule {r : Rule} {c : Cursor} {o : Found Rule} (hr : r.atomic = false)
    (h : grammar.Parses false r.body c o) :
    grammar.Parses false (.rule r) c (o.map fun p => (p.1, [.mk r c p.1 p.2])) := by
  refine .rule (p := o) ?_ ?_
  · change grammar.Parses (false || r.atomic) r.body c o
    rwa [hr]
  · change _ = o.map fun p => (p.1, [Node.mk r c p.1 (if r.atomic then [] else p.2)])
    rw [hr]
    rfl

namespace Misses

theorem mono (h : Misses x G) (hF : ∀ rest, F rest → G rest) : Misses x F :=
  fun c hc hl => h c hc (hF _ hl)

theorem rule {r : Rule} (hr : r.atomic = false) (h : Misses r.body F) : Misses (.rule r) F :=
  fun c hc hl => parses_rule hr (h c hc hl)

theorem seq (h : Misses x F) : Misses (.seq x y) F :=
  fun c hc hl => .seqFail (h c hc hl)

theorem alt (hx : Misses x F) (hy : Misses y F) : Misses (.alt x y) F :=
  fun c hc hl => .altRight (hx c hc hl) (hy c hc hl)

/-- The characters of a solid token are missed wherever another token comes first. -/
theorem solid {t : Token} (ht : t.Solid) :
    Misses (.text t.text) fun ls => ∀ j rest, ls ≠ ⟨t, j⟩ :: rest :=
  fun _ hc hl => parses_solid_none ht hc hl

end Misses

namespace Finds

theorem mono (h : Finds x ls G P) (hF : ∀ rest, F rest → G rest) (hQ : ∀ ns, P ns → Q ns) :
    Finds x ls F Q := by
  intro c rest hc hl hr
  obtain ⟨d, ns, hp, hd, hns⟩ := h c rest hc hl (hF rest hr)
  exact ⟨d, ns, hp, hd, hQ ns hns⟩

/-- The characters of a token are found where it is the first one. -/
theorem token (l : Lexeme) : Finds (.text l.token.text) [l] (fun _ => True) (· = []) := by
  intro c rest hc hl _
  obtain ⟨d, hb, hd⟩ := before_of_lexemes hc hl
  exact ⟨d, [], parses_token hb, hd, rfl⟩

theorem rule {r : Rule} (hr : r.atomic = false) (h : Finds r.body ls F Q) :
    Finds (.rule r) ls F fun ns => ∃ c d ps, ns = [.mk r c d ps] ∧ Q ps := by
  intro c rest hc hl hF
  obtain ⟨d, ps, hp, hd, hQ⟩ := h c rest hc hl hF
  exact ⟨d, [.mk r c d ps], parses_rule hr hp, hd, c, d, ps, rfl, hQ⟩

theorem seq (hx : Finds x ls F P) (hy : Finds y ls' G Q) (hF : ∀ rest, G rest → F (ls' ++ rest)) :
    Finds (.seq x y) (ls ++ ls') G fun ns => ∃ ps qs, P ps ∧ Q qs ∧ ns = ps ++ qs := by
  intro c rest hc hl hr
  rw [List.append_assoc] at hl
  obtain ⟨d, ps, hd, hdl, hps⟩ := hx c _ hc hl (hF rest hr)
  obtain ⟨e, qs, he, hel, hqs⟩ :=
    hy _ rest (afterLayout_settled d) (by rw [lexemes_afterLayout, hdl]) hr
  exact ⟨e, ps ++ qs, .seq hd he rfl, hel, ps, qs, hps, hqs, rfl⟩

/-- A token and something behind it. -/
theorem token_seq (l : Lexeme) (hy : Finds y ls G Q) :
    Finds (.seq (.text l.token.text) y) (l :: ls) G Q := by
  refine ((token l).seq hy fun _ _ => trivial).mono (fun _ h => h) ?_
  rintro ns ⟨ps, qs, rfl, hq, rfl⟩
  exact hq

/-- Something with a token behind it. -/
theorem seq_token (l : Lexeme) (hx : Finds x ls F Q) (hF : ∀ rest, F (l :: rest)) :
    Finds (.seq x (.text l.token.text)) (ls ++ [l]) (fun _ => True) Q := by
  refine (hx.seq (token l) fun rest _ => hF rest).mono (fun _ h => h) ?_
  rintro ns ⟨ps, qs, hp, rfl, rfl⟩
  rwa [List.append_nil]

theorem altLeft (h : Finds x ls F Q) : Finds (.alt x y) ls F Q := by
  intro c rest hc hl hF
  obtain ⟨d, ns, hp, hd, hQ⟩ := h c rest hc hl hF
  exact ⟨d, ns, .altLeft hp, hd, hQ⟩

theorem altRight (hm : Misses x G) (h : Finds y ls F Q) (hG : ∀ rest, F rest → G (ls ++ rest)) :
    Finds (.alt x y) ls F Q := by
  intro c rest hc hl hF
  obtain ⟨d, ns, hp, hd, hQ⟩ := h c rest hc hl hF
  exact ⟨d, ns, .altRight (hm c hc (by rw [hl]; exact hG rest hF)) hp, hd, hQ⟩

theorem opt (h : Finds x ls F Q) : Finds (.opt x) ls F Q := by
  intro c rest hc hl hF
  obtain ⟨d, ns, hp, hd, hQ⟩ := h c rest hc hl hF
  exact ⟨d, ns, .opt hp rfl, hd, hQ⟩

theorem opt_nil (h : Misses x F) : Finds (.opt x) [] F (· = []) :=
  fun c _ hc hl hF => ⟨c, [], .opt (h c hc (by rw [hl]; exact hF)) rfl, hl, rfl⟩

theorem many_nil (h : Misses x F) : Finds (.many x) [] F (· = []) :=
  fun c _ hc hl hF => ⟨c, [], .manyNil (h c hc (by rw [hl]; exact hF)), hl, rfl⟩

theorem many_cons (hx : Finds x ls F P) (hm : Finds (.many x) ls' G Q)
    (hF : ∀ rest, G rest → F (ls' ++ rest)) :
    Finds (.many x) (ls ++ ls') G fun ns => ∃ ps qs, P ps ∧ Q qs ∧ ns = ps ++ qs := by
  intro c rest hc hl hr
  rw [List.append_assoc] at hl
  obtain ⟨d, ps, hd, hdl, hps⟩ := hx c _ hc hl (hF rest hr)
  obtain ⟨e, qs, he, hel, hqs⟩ :=
    hm _ rest (afterLayout_settled d) (by rw [lexemes_afterLayout, hdl]) hr
  obtain ⟨e', he', h⟩ := Grammar.many_cons hd he
  refine ⟨e', ps ++ qs, h, ?_, ps, qs, hps, hqs, rfl⟩
  rcases he' with rfl | ⟨rfl, rfl⟩
  · exact hel
  · rwa [lexemes_afterLayout] at hel

/-- A token, and a repetition of what follows such tokens. -/
theorem many_token (l : Lexeme)
    (h : Finds (.seq x (.many (.seq (.text l.token.text) x))) ls F Q) :
    Finds (.many (.seq (.text l.token.text) x)) (l :: ls) F Q := by
  intro c rest hc hl hF
  obtain ⟨d, hb, hd⟩ := before_of_lexemes hc hl
  obtain ⟨e, ns, he, hel, hQ⟩ :=
    h _ rest (afterLayout_settled d) (by rw [lexemes_afterLayout, hd]; rfl) hF
  cases he with
  | @seq _ _ _ _ d' ns₁ _ p h₁ hm ho =>
    obtain ⟨q, rfl, hq⟩ := Option.map_eq_some_iff.1 ho.symm
    obtain ⟨rfl, rfl⟩ := Prod.mk.inj hq
    obtain ⟨e', he', h'⟩ := Grammar.many_cons (.seq (parses_token hb) h₁ rfl) hm
    refine ⟨e', _, h', ?_, hQ⟩
    rcases he' with rfl | ⟨rfl, he'⟩
    · exact hel
    · rwa [he', lexemes_afterLayout] at hel

/-- The absence of something ahead, and then something else. -/
theorem deny_seq (hx : Misses x G) (hy : Finds y ls F Q) (hG : ∀ rest, F rest → G (ls ++ rest)) :
    Finds (.seq (.deny x) y) ls F Q := by
  intro c rest hc hl hF
  obtain ⟨e, ns, he, hel, hQ⟩ := hy c rest hc hl hF
  rw [← afterLayout_of_settled hc] at he
  exact ⟨e, ns, .seq (.deny (hx c hc (by rw [hl]; exact hG rest hF)) rfl) he rfl, hel, hQ⟩

/-- A keyword ahead, and then the keyword. -/
theorem peek_seq {k : String} {r : Rule} {j : Bool} (hr : r.atomic = true)
    (hbody : r.body = wholeWord k) (hk : k ∈ keywords) (hx : Finds x (⟨.word k, j⟩ :: ls) F Q) :
    Finds (.seq (.peek (.rule r)) x) (⟨.word k, j⟩ :: ls) F Q := by
  intro c rest hc hl hF
  obtain ⟨d, hb, -⟩ := before_of_lexemes hc hl
  obtain ⟨e, ns, he, hel, hQ⟩ := hx c rest hc hl hF
  rw [← afterLayout_of_settled hc] at he
  exact ⟨e, ns, .seq (parses_peek hr hbody hk hc hb) he rfl, hel, hQ⟩

end Finds

end IntScript
