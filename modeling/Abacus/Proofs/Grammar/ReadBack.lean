import Abacus.Proofs.Grammar.Growth

/-!
# Derivations are read back

A draft that awaits an operand takes up the tokens of a derivation as that derivation: for each
rule of the grammar there is one lemma that says which draft results. Together they show that the
tokens of a derivation, read from the beginning, give exactly that derivation.
-/
namespace Abacus.Formula

def NoCall (xs : List Lexeme) : Prop := ∀ x ∈ xs.head?, x.token ≠ .opening

theorem noCall_nil : NoCall [] := nofun

theorem noCall_cons {x : Lexeme} {xs : List Lexeme} (hx : x.token ≠ .opening) :
    NoCall (x :: xs) := by
  rintro y ⟨⟩
  exact hx

theorem Atom.ofWord?_name (x : Identifier) (pos : Nat) :
    Atom.ofWord? x.name.toList pos = some (.name x pos) := by
  rw [Atom.ofWord?, if_neg x.not_isDigit_head, dif_pos (by simpa using x.isName)]
  simp

theorem Draft.read_word {d : Draft} (hd : d.Awaits) (w : List Char) (pos : Nat) :
    d.read ⟨.word w, pos⟩ = (Atom.ofWord? w pos).map fun a => { d with phase := .atom a } :=
  read_of_awaits hd (by simp)

mutual

theorem Expression.parse_lexemes_append (e : Expression) {d : Draft} (hd : d.Awaits)
    (hs : d.stem = {}) {xs : List Lexeme} (hxs : NoCall xs) :
    d.parse (e.lexemes ++ xs) =
      Draft.parse ⟨.term e.last, { total := e.front }, d.frames⟩ xs := by
  cases e with
  | term m =>
    rw [Expression.lexemes, m.parse_lexemes_append hd (by rw [hs]) (by rw [hs]) hxs, hs]
    rfl
  | add e minus pos m =>
    rw [Expression.lexemes, List.append_assoc, List.cons_append,
      e.parse_lexemes_append hd hs (noCall_cons (by simp)), Draft.parse_cons]
    change Draft.parse ⟨.operand, { total := some (Stem.expression { total := e.front } e.last,
      minus, pos) }, d.frames⟩ _ = _
    rw [e.expression_last, m.parse_lexemes_append (.inl rfl) rfl rfl hxs]
    rfl

theorem Term.parse_lexemes_append (m : Term) {d : Draft} (hd : d.Awaits)
    (hp : d.stem.product = none) (hs : d.stem.signs = []) {xs : List Lexeme} (hxs : NoCall xs) :
    d.parse (m.lexemes ++ xs) =
      Draft.parse ⟨.term m, { total := d.stem.total }, d.frames⟩ xs := by
  obtain ⟨phase, ⟨total, product, signs⟩, frames⟩ := d
  subst hp hs
  cases m with
  | signed u =>
    rw [Term.lexemes, u.parse_lexemes_append hd hxs]
    rfl
  | mul m op pos u =>
    rw [Term.lexemes, List.append_assoc, List.cons_append,
      m.parse_lexemes_append hd rfl rfl (noCall_cons (by simp)), Draft.parse_cons]
    change Draft.parse ⟨.operand, { total, product := some (m, op, pos) }, frames⟩ _ = _
    rw [u.parse_lexemes_append (.inl rfl) hxs]
    rfl

theorem Signed.parse_lexemes_append (u : Signed) {d : Draft} (hd : d.Awaits)
    {xs : List Lexeme} (hxs : NoCall xs) :
    d.parse (u.lexemes ++ xs) = (d.take u).parse xs := by
  cases u with
  | operand o => exact o.parse_lexemes_append hd hxs
  | sign minus pos u =>
    rw [Signed.lexemes, List.cons_append, Draft.parse_cons,
      Draft.read_of_awaits hd (by simp)]
    change Draft.parse { d with
      phase := .operand, stem := { d.stem with signs := (minus, pos) :: d.stem.signs } } _ = _
    rw [u.parse_lexemes_append (.inl rfl) hxs]
    rfl

theorem Operand.parse_lexemes_append (o : Operand) {d : Draft} (hd : d.Awaits)
    {xs : List Lexeme} (hxs : NoCall xs) :
    d.parse (o.lexemes ++ xs) = (d.take (.operand o)).parse xs := by
  cases o with
  | atom a =>
    rw [Operand.lexemes, a.parse_lexemes_append hd, Draft.parse_atom rfl hxs]
    rfl
  | nullary callee opening closing =>
    rw [Operand.lexemes, List.append_assoc, callee.parse_lexemes_append hd]
    rfl
  | call callee opening args closing =>
    rw [Operand.lexemes, List.append_assoc, List.cons_append, List.append_assoc,
      List.singleton_append, callee.parse_lexemes_append hd, Draft.parse_cons]
    change Draft.parse ⟨.arguments, {}, .call d.stem callee opening none :: d.frames⟩ _ = _
    rw [args.parse_lexemes_append (.inr rfl) rfl (noCall_cons (by simp)), Draft.parse_cons]
    change Draft.parse (Draft.take ⟨.operand, d.stem, d.frames⟩ (.operand (.call callee opening
      (Arguments.extend args.front (Stem.expression { total := args.last.front } args.last.last))
      closing))) _ = _
    rw [Expression.expression_last, Arguments.extend_last]
    rfl

theorem Arguments.parse_lexemes_append (args : Arguments) {phase : Draft.Phase} {r : Stem}
    {outer : Stem} {callee : Atom} {opening : Nat} {around : List Frame}
    (hd : phase = .operand ∨ phase = .arguments) (hs : r = {})
    {xs : List Lexeme} (hxs : NoCall xs) :
    Draft.parse ⟨phase, r, .call outer callee opening none :: around⟩ (args.lexemes ++ xs) =
      Draft.parse ⟨.term args.last.last, { total := args.last.front },
        .call outer callee opening args.front :: around⟩ xs := by
  cases args with
  | one e => exact e.parse_lexemes_append (d := ⟨phase, r, _⟩) hd hs hxs
  | more args comma e =>
    rw [Arguments.lexemes, List.append_assoc, List.cons_append,
      args.parse_lexemes_append hd hs (noCall_cons (by simp)), Draft.parse_cons]
    change Draft.parse ⟨.operand, {}, .call outer callee opening
      (some (Arguments.extend args.front (Stem.expression { total := args.last.front }
        args.last.last), comma)) :: around⟩ _ = _
    rw [Expression.expression_last, Arguments.extend_last,
      e.parse_lexemes_append (.inl rfl) rfl hxs]
    rfl

theorem Atom.parse_lexemes_append (a : Atom) {d : Draft} (hd : d.Awaits) {xs : List Lexeme} :
    d.parse (a.lexemes ++ xs) = Draft.parse { d with phase := .atom a } xs := by
  cases a with
  | group opening e closing =>
    rw [Atom.lexemes, List.cons_append, Draft.parse_cons, Draft.read_of_awaits hd (by simp),
      List.append_assoc, List.singleton_append]
    change Draft.parse ⟨.operand, {}, .group d.stem opening :: d.frames⟩ _ = _
    rw [e.parse_lexemes_append (.inl rfl) rfl (noCall_cons (by simp)), Draft.parse_cons]
    change Draft.parse ⟨.atom (.group opening (Stem.expression { total := e.front } e.last)
      closing), d.stem, d.frames⟩ _ = _
    rw [Expression.expression_last]
  | literal l pos =>
    rw [Atom.lexemes, List.cons_append, Draft.parse_cons, Draft.read_word hd,
      Atom.ofWord?_literal]
    rfl
  | name x pos =>
    rw [Atom.lexemes, List.cons_append, Draft.parse_cons, Draft.read_word hd, Atom.ofWord?_name]
    rfl

end

/-- The tokens of a derivation, read from the beginning, give that derivation. -/
theorem Expression.parse_lexemes (e : Expression) : Draft.parse {} e.lexemes = some e := by
  have h := e.parse_lexemes_append (d := {}) (.inl rfl) rfl noCall_nil
  rw [List.append_nil] at h
  exact h.trans (congrArg some e.expression_last)

/-- A text is derivable by a tree if and only if its tokens are parsed to that tree. -/
theorem Expression.spells_iff {e : Expression} {text : List Char} :
    e.Spells text ↔ Draft.parse {} (tokens 0 text) = some e := by
  constructor
  · intro h
    obtain ⟨d, hd, _⟩ := Option.bind_eq_some_iff.mp e.parse_lexemes
    have htokens : tokens 0 text = e.lexemes :=
      h.tokens_eq (Draft.proper_of_run hd) (Draft.separate_of_run hd)
    rw [htokens, e.parse_lexemes]
  · intro h
    have hspelled := spelled_tokens 0 text
    rwa [← Draft.lexemes_of_parse h] at hspelled

/-- No text has two derivations. -/
theorem Expression.eq_of_spells {e e' : Expression} {text : List Char} (h : e.Spells text)
    (h' : e'.Spells text) : e = e' :=
  Option.some.inj ((spells_iff.mp h).symm.trans (spells_iff.mp h'))

end Abacus.Formula
