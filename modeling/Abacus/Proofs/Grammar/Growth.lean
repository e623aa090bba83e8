import Abacus.Proofs.Grammar.Draft
import Abacus.Proofs.Grammar.Spelling

/-!
# How drafts grow

`Grows` lists the ways in which a token can prolong a draft. From it follow the invariants of
drafts: a draft holds exactly the tokens that it was grown from, and no two neighbours among them
are words.
-/
namespace Abacus.Formula

namespace Draft

inductive Grows : Draft → Lexeme → Draft → Prop
  | word {d : Draft} {w : List Char} {pos : Nat} {a : Atom} (hd : d.Awaits)
      (ha : Atom.ofWord? w pos = some a) : Grows d ⟨.word w, pos⟩ { d with phase := .atom a }
  | sign {d : Draft} (minus : Bool) (pos : Nat) (hd : d.Awaits) :
      Grows d ⟨.sign minus, pos⟩ { d with
        phase := .operand, stem := { d.stem with signs := (minus, pos) :: d.stem.signs } }
  | group {d : Draft} (pos : Nat) (hd : d.Awaits) :
      Grows d ⟨.opening, pos⟩ ⟨.operand, {}, .group d.stem pos :: d.frames⟩
  | nullary (r outer : Stem) (callee : Atom) (opening pos : Nat) (around : List Frame) :
      Grows ⟨.arguments, r, .call outer callee opening none :: around⟩ ⟨.closing, pos⟩
        (take ⟨.operand, outer, around⟩ (.operand (.nullary callee opening pos)))
  | callee (a : Atom) (r : Stem) (pos : Nat) (around : List Frame) :
      Grows ⟨.atom a, r, around⟩ ⟨.opening, pos⟩ ⟨.arguments, {}, .call r a pos none :: around⟩
  | settle {a : Atom} {r : Stem} {around : List Frame} {x : Lexeme} {d : Draft}
      (hx : x.token ≠ .opening)
      (h : Grows (take ⟨.atom a, r, around⟩ (.operand (.atom a))) x d) :
      Grows ⟨.atom a, r, around⟩ x d
  | plus (m : Term) (r : Stem) (minus : Bool) (pos : Nat) (around : List Frame) :
      Grows ⟨.term m, r, around⟩ ⟨.sign minus, pos⟩
        ⟨.operand, { total := some (r.expression m, minus, pos) }, around⟩
  | times (m : Term) (r : Stem) (op : Factor) (pos : Nat) (around : List Frame) :
      Grows ⟨.term m, r, around⟩ ⟨.factor op, pos⟩
        ⟨.operand, { total := r.total, product := some (m, op, pos) }, around⟩
  | comma (m : Term) (r outer : Stem) (callee : Atom) (opening pos : Nat)
      (args : Option (Arguments × Nat)) (around : List Frame) :
      Grows ⟨.term m, r, .call outer callee opening args :: around⟩ ⟨.comma, pos⟩
        ⟨.operand, {},
          .call outer callee opening (some (.extend args (r.expression m), pos)) :: around⟩
  | call (m : Term) (r outer : Stem) (callee : Atom) (opening pos : Nat)
      (args : Option (Arguments × Nat)) (around : List Frame) :
      Grows ⟨.term m, r, .call outer callee opening args :: around⟩ ⟨.closing, pos⟩
        (take ⟨.operand, outer, around⟩
          (.operand (.call callee opening (.extend args (r.expression m)) pos)))
  | close (m : Term) (r outer : Stem) (opening pos : Nat) (around : List Frame) :
      Grows ⟨.term m, r, .group outer opening :: around⟩ ⟨.closing, pos⟩
        ⟨.atom (.group opening (r.expression m) pos), outer, around⟩

theorem grows_of_readOperand {d d' : Draft} {x : Lexeme} (hd : d.Awaits)
    (h : d.readOperand x = some d') : Grows d x d' := by
  obtain ⟨t, pos⟩ := x
  cases t with
  | word w =>
    obtain ⟨a, ha, rfl⟩ := Option.map_eq_some_iff.mp h
    exact .word hd ha
  | sign minus =>
    obtain rfl := Option.some.inj h
    exact .sign minus pos hd
  | opening =>
    obtain rfl := Option.some.inj h
    exact .group pos hd
  | _ => cases h

theorem grows_of_readOperator {m : Term} {r : Stem} {around : List Frame} {d : Draft}
    {x : Lexeme} (h : readOperator x m ⟨.term m, r, around⟩ = some d) :
    Grows ⟨.term m, r, around⟩ x d := by
  obtain ⟨t, pos⟩ := x
  cases t with
  | sign minus =>
    obtain rfl := Option.some.inj h
    exact .plus m r minus pos around
  | factor op =>
    obtain rfl := Option.some.inj h
    exact .times m r op pos around
  | comma =>
    match around with
    | .call outer callee opening args :: around =>
      obtain rfl := Option.some.inj h
      exact .comma m r outer callee opening pos args around
  | closing =>
    match around with
    | .call outer callee opening args :: around =>
      obtain rfl := Option.some.inj h
      exact .call m r outer callee opening pos args around
    | .group outer opening :: around =>
      obtain rfl := Option.some.inj h
      exact .close m r outer opening pos around
  | _ => cases around <;> cases h

theorem grows_of_read {d d' : Draft} {x : Lexeme} (h : d.read x = some d') : Grows d x d' := by
  obtain ⟨phase, r, around⟩ := d
  cases phase with
  | arguments =>
    simp only [Draft.read] at h
    split at h
    · obtain ⟨t, pos⟩ := x
      next outer callee opening rest ht =>
        obtain rfl : t = .closing := ht
        obtain rfl := Option.some.inj h
        exact .nullary r outer callee opening pos rest
    · exact grows_of_readOperand (.inr rfl) h
  | operand => exact grows_of_readOperand (.inl rfl) h
  | atom a =>
    by_cases hx : x.token = .opening
    · obtain ⟨t, pos⟩ := x
      subst hx
      obtain rfl := Option.some.inj h
      exact .callee a r pos around
    · exact .settle hx (grows_of_readOperator ((if_neg hx).symm.trans h))
  | term m => exact grows_of_readOperator h

/-- The stem is used up where a term is complete, and an argument list has just been opened where
it may be closed at once. -/
structure Tidy (d : Draft) : Prop where
  stem_of_term : ∀ m, d.phase = .term m → d.stem.product = none ∧ d.stem.signs = []
  frame_of_arguments : d.phase = .arguments → d.stem = {} ∧
    ∃ outer callee opening around, d.frames = .call outer callee opening none :: around

theorem tidy_take (d : Draft) (u : Signed) : (d.take u).Tidy :=
  ⟨fun _ _ => ⟨rfl, rfl⟩, nofun⟩

theorem Grows.tidy {d d' : Draft} {x : Lexeme} (h : Grows d x d') : d'.Tidy := by
  induction h with
  | nullary | call => exact tidy_take _ _
  | callee a r pos around => exact ⟨nofun, fun _ => ⟨rfl, r, a, pos, around, rfl⟩⟩
  | settle _ _ ih => exact ih
  | _ => exact ⟨nofun, nofun⟩

end Draft

def Stem.lexemes (r : Stem) : List Lexeme :=
  (match r.total with
    | none => []
    | some (e, minus, pos) => e.lexemes ++ [⟨.sign minus, pos⟩]) ++
  (match r.product with
    | none => []
    | some (m, op, pos) => m.lexemes ++ [⟨.factor op, pos⟩]) ++
  r.signs.reverse.map fun s => ⟨.sign s.1, s.2⟩

def Frame.lexemes : Frame → List Lexeme
  | .group outer opening => outer.lexemes ++ [⟨.opening, opening⟩]
  | .call outer callee opening args =>
    outer.lexemes ++ callee.lexemes ++ ⟨.opening, opening⟩ ::
      match args with
      | none => []
      | some (args, comma) => args.lexemes ++ [⟨.comma, comma⟩]

/-- The tokens of the open groups and calls; the innermost one is the first in the list. -/
def Frame.lexemesOf : List Frame → List Lexeme
  | [] => []
  | f :: around => lexemesOf around ++ f.lexemes

def Draft.Phase.lexemes : Draft.Phase → List Lexeme
  | .atom a => a.lexemes
  | .term m => m.lexemes
  | _ => []

def Draft.lexemes (d : Draft) : List Lexeme :=
  Frame.lexemesOf d.frames ++ d.stem.lexemes ++ d.phase.lexemes

theorem Stem.lexemes_expression (r : Stem) (m : Term) :
    (r.expression m).lexemes = ({ total := r.total } : Stem).lexemes ++ m.lexemes := by
  obtain ⟨_ | ⟨e, minus, pos⟩, product, signs⟩ := r
  · rfl
  · simp [Stem.expression, Stem.lexemes, Expression.lexemes]

theorem Stem.lexemes_signed (signs : List (Bool × Nat)) (u : Signed) :
    (signs.foldl (fun u s => Signed.sign s.1 s.2 u) u).lexemes =
      (signs.reverse.map fun s => ⟨.sign s.1, s.2⟩) ++ u.lexemes := by
  induction signs generalizing u with
  | nil => rfl
  | cons s signs ih => simp [ih, Signed.lexemes]

/-- A term takes up the product and the signs before it. -/
theorem Stem.lexemes_term (r : Stem) (u : Signed) :
    ({ total := r.total } : Stem).lexemes ++ (r.term u).lexemes = r.lexemes ++ u.lexemes := by
  obtain ⟨total, _ | ⟨m, op, pos⟩, signs⟩ := r <;>
    simp [Stem.term, Stem.signed, Stem.lexemes, Term.lexemes, Stem.lexemes_signed]

theorem Arguments.lexemes_extend (args : Option (Arguments × Nat)) (e : Expression) :
    (Arguments.extend args e).lexemes =
      (match args with
        | none => []
        | some (args, comma) => args.lexemes ++ [⟨.comma, comma⟩]) ++ e.lexemes := by
  cases args <;> simp [Arguments.extend, Arguments.lexemes]

theorem Atom.lexemes_ofWord? {w : List Char} {pos : Nat} {a : Atom}
    (h : Atom.ofWord? w pos = some a) : a.lexemes = [⟨.word w, pos⟩] := by
  unfold Atom.ofWord? at h
  split at h
  · obtain ⟨l, hl, rfl⟩ := Option.map_eq_some_iff.mp h
    rw [Atom.lexemes, Literal.spelling_of_ofWord? hl]
  · split at h
    · obtain rfl := Option.some.inj h
      simp [Atom.lexemes]
    · cases h

theorem Atom.proper_of_ofWord? {w : List Char} {pos : Nat} {a : Atom}
    (h : Atom.ofWord? w pos = some a) : (Token.word w).Proper := by
  unfold Atom.ofWord? at h
  split at h
  · obtain ⟨l, hl, -⟩ := Option.map_eq_some_iff.mp h
    obtain rfl := Literal.spelling_of_ofWord? hl
    exact ⟨l.spelling_ne_nil, fun c hc => l.isAlphanum_of_mem_spelling hc⟩
  · split at h
    · next hw =>
      let x : Identifier := ⟨String.ofList w, hw⟩
      have hx : x.name.toList = w := String.toList_ofList
      exact ⟨hx ▸ x.toList_ne_nil, hx ▸ x.isAlphanum_of_mem⟩
    · cases h

namespace Draft

theorem lexemes_take (d : Draft) (u : Signed) :
    (d.take u).lexemes = Frame.lexemesOf d.frames ++ d.stem.lexemes ++ u.lexemes := by
  rw [List.append_assoc, ← Stem.lexemes_term, ← List.append_assoc]
  rfl

theorem lexemes_of_awaits {d : Draft} (hd : d.Awaits) :
    d.lexemes = Frame.lexemesOf d.frames ++ d.stem.lexemes := by
  obtain ⟨phase, stem, frames⟩ := d
  rcases hd with rfl | rfl <;> exact List.append_nil _

theorem Grows.lexemes {d d' : Draft} {x : Lexeme} (h : Grows d x d') (hd : d.Tidy) :
    d'.lexemes = d.lexemes ++ [x] := by
  induction h with
  | word hw ha => rw [lexemes_of_awaits hw, ← Atom.lexemes_ofWord? ha]; rfl
  | sign minus pos hw =>
    rw [lexemes_of_awaits hw]
    simp [Draft.lexemes, Stem.lexemes, Phase.lexemes]
  | group pos hw =>
    rw [lexemes_of_awaits hw]
    simp [Draft.lexemes, Frame.lexemesOf, Frame.lexemes, Stem.lexemes, Phase.lexemes]
  | nullary r outer callee opening pos around =>
    obtain rfl : r = {} := (hd.frame_of_arguments rfl).1
    rw [lexemes_take]
    simp [Draft.lexemes, Frame.lexemesOf, Frame.lexemes, Stem.lexemes, Phase.lexemes,
      Signed.lexemes, Operand.lexemes]
  | callee a r pos around =>
    simp [Draft.lexemes, Frame.lexemesOf, Frame.lexemes, Stem.lexemes, Phase.lexemes]
  | settle hx h ih =>
    rw [ih (tidy_take _ _), lexemes_take]
    rfl
  | plus m r minus pos around =>
    obtain ⟨total, product, signs⟩ := r
    obtain ⟨rfl, rfl⟩ := hd.stem_of_term m rfl
    simp [Draft.lexemes, Stem.lexemes, Phase.lexemes, Stem.lexemes_expression]
  | times m r op pos around =>
    obtain ⟨total, product, signs⟩ := r
    obtain ⟨rfl, rfl⟩ := hd.stem_of_term m rfl
    simp [Draft.lexemes, Stem.lexemes, Phase.lexemes]
  | comma m r outer callee opening pos args around =>
    obtain ⟨total, product, signs⟩ := r
    obtain ⟨rfl, rfl⟩ := hd.stem_of_term m rfl
    simp [Draft.lexemes, Frame.lexemesOf, Frame.lexemes, Stem.lexemes, Phase.lexemes,
      Arguments.lexemes_extend, Stem.lexemes_expression]
  | call m r outer callee opening pos args around =>
    obtain ⟨total, product, signs⟩ := r
    obtain ⟨rfl, rfl⟩ := hd.stem_of_term m rfl
    rw [lexemes_take]
    simp [Draft.lexemes, Frame.lexemesOf, Frame.lexemes, Stem.lexemes, Phase.lexemes,
      Arguments.lexemes_extend, Stem.lexemes_expression, Signed.lexemes, Operand.lexemes]
  | close m r outer opening pos around =>
    obtain ⟨total, product, signs⟩ := r
    obtain ⟨rfl, rfl⟩ := hd.stem_of_term m rfl
    simp [Draft.lexemes, Frame.lexemesOf, Frame.lexemes, Stem.lexemes, Phase.lexemes,
      Stem.lexemes_expression, Atom.lexemes]

/-- What a run of tokens leads to is tidy and holds these tokens. -/
theorem run_invariant {xs : List Lexeme} {d d' : Draft} (hd : d.Tidy) (h : d.run xs = some d') :
    d'.Tidy ∧ d'.lexemes = d.lexemes ++ xs := by
  induction xs generalizing d with
  | nil =>
    obtain rfl := Option.some.inj h
    exact ⟨hd, (List.append_nil _).symm⟩
  | cons x xs ih =>
    obtain ⟨d₁, hx, hxs⟩ := Option.bind_eq_some_iff.mp h
    have hg := grows_of_read hx
    obtain ⟨ht, hl⟩ := ih hg.tidy hxs
    refine ⟨ht, ?_⟩
    rw [hl, hg.lexemes hd, List.append_assoc, List.singleton_append]

theorem tidy_initial : ({} : Draft).Tidy := ⟨nofun, nofun⟩

theorem lexemes_of_complete? {d : Draft} (hd : d.Tidy) {e : Expression}
    (h : d.complete? = some e) : e.lexemes = d.lexemes := by
  obtain ⟨phase, r, frames⟩ := d
  unfold complete? at h
  split at h
  · next a hp hf =>
    obtain rfl : phase = .atom a := hp
    obtain rfl : frames = [] := hf
    obtain rfl := Option.some.inj h
    exact (Stem.lexemes_expression r _).trans (Stem.lexemes_term r _)
  · next m hp hf =>
    obtain rfl : phase = .term m := hp
    obtain rfl : frames = [] := hf
    obtain rfl := Option.some.inj h
    obtain ⟨total, product, signs⟩ := r
    obtain ⟨rfl, rfl⟩ := hd.stem_of_term m rfl
    exact Stem.lexemes_expression _ m
  · cases h

/-- A derivation that tokens are parsed to has these tokens at its leaves. -/
theorem lexemes_of_parse {xs : List Lexeme} {e : Expression} (h : Draft.parse {} xs = some e) :
    e.lexemes = xs := by
  obtain ⟨d, hd, he⟩ := Option.bind_eq_some_iff.mp h
  obtain ⟨ht, hl⟩ := run_invariant tidy_initial hd
  exact (lexemes_of_complete? ht he).trans hl

theorem Grows.awaits_of_isWord {d d' : Draft} {x : Lexeme} (h : Grows d x d')
    (hx : x.token.IsWord) : d.Awaits := by
  induction h with
  | word hd _ => exact hd
  | settle _ _ ih => rcases ih hx with h | h <;> cases h
  | _ => exact absurd hx id

theorem Grows.phase_of_isWord {d d' : Draft} {x : Lexeme} (h : Grows d x d')
    (hx : x.token.IsWord) : ∃ a, d'.phase = .atom a := by
  induction h with
  | word _ _ => exact ⟨_, rfl⟩
  | settle _ _ ih => exact ih hx
  | _ => exact absurd hx id

/-- Behind a word no word can follow. -/
theorem separate_of_run {xs : List Lexeme} {d d' : Draft} (h : d.run xs = some d') :
    Separate xs := by
  induction xs generalizing d with
  | nil => exact .nil
  | cons x xs ih =>
    obtain ⟨d₁, hx, hxs⟩ := Option.bind_eq_some_iff.mp h
    cases xs with
    | nil => exact .singleton x
    | cons y ys =>
      obtain ⟨d₂, hy, _⟩ := Option.bind_eq_some_iff.mp hxs
      refine List.isChain_cons_cons.mpr ⟨?_, ih hxs⟩
      rintro ⟨hwx, hwy⟩
      obtain ⟨a, ha⟩ := (grows_of_read hx).phase_of_isWord hwx
      rcases (grows_of_read hy).awaits_of_isWord hwy with hp | hp <;> cases ha.symm.trans hp

theorem Grows.proper {d d' : Draft} {x : Lexeme} (h : Grows d x d') : x.token.Proper := by
  induction h with
  | word _ ha => exact Atom.proper_of_ofWord? ha
  | settle _ _ ih => exact ih
  | _ => trivial

theorem proper_of_run {xs : List Lexeme} {d d' : Draft} (h : d.run xs = some d') :
    ∀ x ∈ xs, x.token.Proper := by
  induction xs generalizing d with
  | nil => exact fun _ hx => nomatch hx
  | cons x xs ih =>
    obtain ⟨d₁, hx, hxs⟩ := Option.bind_eq_some_iff.mp h
    exact List.forall_mem_cons.mpr ⟨(grows_of_read hx).proper, ih hxs⟩

end Draft

end Abacus.Formula
