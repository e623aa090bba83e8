import Abacus.Proofs.Grammar.ReadBack

/-!
# Beginnings of formulas

Every draft can be completed: an operand if one is due, and a parenthesis for each group and call
that is open. The tokens that can be read into a draft are therefore exactly those with which some
derivation begins (`exists_run_iff`), and a token that does not prolong a draft is the first one
that no derivation allows.
-/
namespace Abacus.Formula.Draft

theorem not_awaits_atom {a : Atom} {r : Stem} {frames : List Frame} :
    ¬ Awaits ⟨.atom a, r, frames⟩ := by
  rintro (h | h) <;> cases h

theorem not_awaits_term {m : Term} {r : Stem} {frames : List Frame} :
    ¬ Awaits ⟨.term m, r, frames⟩ := by
  rintro (h | h) <;> cases h

theorem tokens_closings_succ (i n : Nat) :
    tokens i (List.replicate (n + 1) ')') =
      ⟨.closing, i⟩ :: tokens (i + 1) (List.replicate n ')') := by
  rw [List.replicate_succ, tokens_cons_mark (by decide) (by decide)]
  rfl

/-- An atom or a term is due nothing but the parentheses that close what is open around it. -/
theorem exists_parse_closing (d : Draft) (hd : ¬ d.Awaits) (i : Nat) :
    ∃ n e, d.parse (tokens i (List.replicate n ')')) = some e := by
  obtain ⟨phase, r, frames⟩ := d
  induction frames generalizing phase r i with
  | nil =>
    cases phase with
    | arguments => exact absurd (.inr rfl) hd
    | operand => exact absurd (.inl rfl) hd
    | atom a => exact ⟨0, _, rfl⟩
    | term m => exact ⟨0, _, rfl⟩
  | cons f around ih =>
    obtain ⟨d', hread, hd', hframes⟩ : ∃ d',
        read ⟨.closing, i⟩ ⟨phase, r, f :: around⟩ = some d' ∧ ¬ d'.Awaits ∧
          d'.frames = around := by
      cases phase with
      | arguments => exact absurd (.inr rfl) hd
      | operand => exact absurd (.inl rfl) hd
      | atom a =>
        cases f with
        | group outer opening => exact ⟨_, rfl, not_awaits_atom, rfl⟩
        | call outer callee opening args => exact ⟨_, rfl, not_awaits_term, rfl⟩
      | term m =>
        cases f with
        | group outer opening => exact ⟨_, rfl, not_awaits_atom, rfl⟩
        | call outer callee opening args => exact ⟨_, rfl, not_awaits_term, rfl⟩
    obtain ⟨phase', r', around'⟩ := d'
    obtain rfl : around' = around := hframes
    obtain ⟨n, e, he⟩ := ih (i + 1) phase' r' hd'
    refine ⟨n + 1, e, ?_⟩
    rw [tokens_closings_succ, parse_cons, hread, Option.bind_some, he]

/-- Every draft can be completed by a text. -/
theorem exists_parse (d : Draft) (i : Nat) : ∃ cs e, d.parse (tokens i cs) = some e := by
  by_cases hd : d.Awaits
  · let x : Identifier := ⟨"x", rfl⟩
    have hread : d.read ⟨.word x.name.toList, i⟩ = some { d with phase := .atom (.name x i) } := by
      rw [read_word hd, Atom.ofWord?_name, Option.map_some]
    obtain ⟨n, e, he⟩ :=
      exists_parse_closing { d with phase := .atom (.name x i) } not_awaits_atom
        (i + x.name.toList.length)
    have hword : tokens i (x.name.toList ++ List.replicate n ')') = ⟨.word x.name.toList, i⟩ ::
        tokens (i + x.name.toList.length) (List.replicate n ')') := by
      refine tokens_word_append x.toList_ne_nil x.isAlphanum_of_mem fun v ys hv => ?_
      cases n with
      | zero => cases hv
      | succ n => cases (tokens_closings_succ _ n).symm.trans hv
    refine ⟨x.name.toList ++ List.replicate n ')', e, ?_⟩
    rw [hword, parse_cons, hread, Option.bind_some, he]
  · obtain ⟨n, e, he⟩ := d.exists_parse_closing hd i
    exact ⟨_, e, he⟩

theorem run_append (xs ys : List Lexeme) (d : Draft) :
    d.run (xs ++ ys) = (d.run xs).bind (run ys) := List.foldlM_append

/-- Tokens are read into a draft if and only if a derivation begins with them. -/
theorem exists_run_iff {xs : List Lexeme} :
    (∃ d, run xs {} = some d) ↔ ∃ e : Expression, xs <+: e.lexemes := by
  constructor
  · rintro ⟨d, hd⟩
    obtain ⟨cs, e, he⟩ := d.exists_parse 0
    refine ⟨e, tokens 0 cs, (lexemes_of_parse ?_).symm⟩
    rw [parse, run_append, hd]
    exact he
  · rintro ⟨e, ys, hys⟩
    obtain ⟨d, hd, -⟩ := Option.bind_eq_some_iff.mp e.parse_lexemes
    rw [← hys, run_append] at hd
    obtain ⟨d', hd', -⟩ := Option.bind_eq_some_iff.mp hd
    exact ⟨d', hd'⟩

/-- A token that does not prolong the draft is one that no derivation allows there. -/
theorem not_prefix_of_read {xs : List Lexeme} {d : Draft} {x : Lexeme}
    (hd : run xs {} = some d) (hx : d.read x = none) (e : Expression) :
    ¬ xs ++ [x] <+: e.lexemes := by
  intro he
  obtain ⟨d', hd'⟩ := exists_run_iff.mpr ⟨e, he⟩
  rw [run_append, hd, Option.bind_some, run_cons, hx] at hd'
  cases hd'

end Abacus.Formula.Draft
