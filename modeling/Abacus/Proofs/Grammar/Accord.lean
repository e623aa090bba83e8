import Abacus.Proofs.Evaluation.Arrival
import Abacus.Proofs.Evaluation.Nesting
import Abacus.Proofs.Grammar.Beginning
import Abacus.Proofs.Grammar.Soundness

/-!
# The state and the draft

An evaluation that is under way has read a draft, and its state agrees with that draft: it holds the
same operators in their places, the same number of arguments, and a call for each open argument
list, of the function that the name in front of the list denoted when the evaluation came to it.
A token therefore either prolongs the draft, or the failure that it leads to has one of the causes
that `Cause` lists (`answers_read`).
-/
namespace Abacus.Formula

variable {φ ε : Type}

/-- A product that cannot be computed is a division by zero, and fails at its operator. -/
theorem RunningSum.of_multiply_error {r : RunningSum} {v : Int} {e : Failure}
    (h : r.multiply v = .error e) :
    ∃ a op pos, r.product = some (a, op, pos) ∧ op ≠ .times ∧ e = ⟨.divideByZero, pos⟩ := by
  obtain ⟨total, subtract, product, negate⟩ := r
  cases product with
  | none => cases h
  | some q =>
    obtain ⟨a, op, pos⟩ := q
    refine ⟨a, op, pos, rfl, ?_, ?_⟩
    · rintro rfl
      cases h
    · simp only [multiply] at h
      split at h
      · cases h
      · cases h
        rfl

def Arguments.countBefore (args : Option (Arguments × Nat)) : Nat :=
  args.elim 0 fun args => args.1.count

theorem Arguments.count_extend (args : Option (Arguments × Nat)) (e : Expression) :
    (extend args e).count = countBefore args + 1 := by
  cases args <;> rfl

/-- The same operator, at the same position, stands before the next operand. -/
def Stem.Accords (r : Stem) (s : RunningSum) : Prop :=
  r.product.map Prod.snd = s.product.map Prod.snd

theorem Stem.accords_initial : ({} : Stem).Accords {} := rfl

theorem Stem.Accords.of_multiply_error {r : Stem} {s : RunningSum} (hr : r.Accords s) {v : Int}
    {e : Failure} (h : s.multiply v = .error e) :
    ∃ op pos, op ≠ .times ∧ ⟨.factor op, pos⟩ ∈ r.lexemes ∧ e = ⟨.divideByZero, pos⟩ := by
  obtain ⟨a, op, pos, hproduct, hop, rfl⟩ := RunningSum.of_multiply_error h
  have hproduct' : r.product.map Prod.snd = some (op, pos) := by
    rw [hr, hproduct, Option.map_some]
  obtain ⟨⟨m, op', pos'⟩, hm, heq⟩ := Option.map_eq_some_iff.mp hproduct'
  obtain ⟨rfl, rfl⟩ := Prod.mk.inj heq
  refine ⟨op', pos', hop, ?_, rfl⟩
  simp [Stem.lexemes, hm]

section accord

variable (h : Host φ ε) (c : Calculator φ ε)

def Leaves (xs : List Lexeme) (c₁ : Calculator φ ε) : Prop := ∃ s, Stands h c xs s c₁

/-- The open groups and calls agree, and each call is of the function that the name in front of its
argument list denoted. -/
inductive Frame.Accords : List Frame → List (Enclosure φ) → Prop
  | nil : Accords [] []
  | group {outer : Stem} {s : RunningSum} {opening : Nat} {around : List Frame}
      {es : List (Enclosure φ)} (houter : outer.Accords s) (haround : Accords around es) :
      Accords (.group outer opening :: around) (.group s :: es)
  | call {outer : Stem} {s : RunningSum} {x : Identifier} {pos opening : Nat}
      {args : Option (Arguments × Nat)} {around : List Frame} {es : List (Enclosure φ)}
      {f : Routine φ} {vs : List Int} {c₁ : Calculator φ ε}
      (hleaves : Leaves h c (lexemesOf around ++ outer.lexemes) c₁)
      (hvalue : c₁.symbols.value? x.name = none) (hroutine : c₁.symbols.routine? x.name = some f)
      (hlength : vs.length = Arguments.countBefore args)
      (houter : outer.Accords s) (haround : Accords around es) :
      Accords (.call outer (.name x pos) opening args :: around) (.call f pos vs s :: es)

inductive Draft.Accords (c₁ : Calculator φ ε) : Draft → State φ → Prop
  | arguments {r : Stem} {s : RunningSum} {frames : List Frame} {es : List (Enclosure φ)}
      (hr : r.Accords s) (hes : Frame.Accords h c frames es) :
      Accords c₁ ⟨.arguments, r, frames⟩ ⟨.arguments, s, es⟩
  | operand {r : Stem} {s : RunningSum} {frames : List Frame} {es : List (Enclosure φ)}
      (hr : r.Accords s) (hes : Frame.Accords h c frames es) :
      Accords c₁ ⟨.operand, r, frames⟩ ⟨.operand, s, es⟩
  | name {r : Stem} {s : RunningSum} {frames : List Frame} {es : List (Enclosure φ)}
      {x : Identifier} {pos : Nat} (hr : r.Accords s) (hes : Frame.Accords h c frames es)
      (hleaves : Leaves h c (Frame.lexemesOf frames ++ r.lexemes) c₁)
      (hvalue : c₁.symbols.value? x.name = none) :
      Accords c₁ ⟨.atom (.name x pos), r, frames⟩ ⟨.name x.name pos, s, es⟩
  | value {r : Stem} {s : RunningSum} {frames : List Frame} {es : List (Enclosure φ)} {a : Atom}
      {v : Int} (hr : r.Accords s) (hes : Frame.Accords h c frames es)
      (ha : ∀ x pos, a = .name x pos → ∃ c₀,
        Leaves h c (Frame.lexemesOf frames ++ r.lexemes) c₀ ∧ c₀.symbols.value? x.name ≠ none) :
      Accords c₁ ⟨.atom a, r, frames⟩ ⟨.primary v, s, es⟩
  | term {r : Stem} {s : RunningSum} {frames : List Frame} {es : List (Enclosure φ)}
      (m : Term) (p : Int) (hes : Frame.Accords h c frames es) :
      Accords c₁ ⟨.term m, r, frames⟩ ⟨.product p, s, es⟩

def IsArgumentList (xs : List Lexeme) (n : Nat) : Prop :=
  xs = [] ∧ n = 0 ∨ ∃ args : Arguments, xs = args.lexemes ∧ n = args.count

/-- Why an evaluation that has read the tokens `xs` fails at the token that comes next, or at the
end of the text if there is none. -/
inductive Cause (xs : List Lexeme) : Option Lexeme → Failure → Prop
  /-- The next token is a word with a digit in front that is no literal. -/
  | literal {w : List Char} {pos : Nat} (hdigit : w.head?.any Char.isDigit)
      (hliteral : ∀ l : Literal, l.spelling ≠ w) :
      Cause xs (some ⟨.word w, pos⟩) ⟨.invalidLiteral, pos⟩
  /-- The last token is a name that is bound to nothing. -/
  | unknown {before : List Lexeme} {x : Identifier} {pos : Nat} {c₁ : Calculator φ ε}
      {next : Option Lexeme} (hxs : xs = before ++ [⟨.word x.name.toList, pos⟩])
      (hleaves : Leaves h c before c₁) (hvalue : c₁.symbols.value? x.name = none)
      (hroutine : c₁.symbols.routine? x.name = none) : Cause xs next ⟨.unknownIdentifier, pos⟩
  /-- The last token names a function, and no argument list is opened behind it. -/
  | uncalled {before : List Lexeme} {x : Identifier} {pos : Nat} {c₁ : Calculator φ ε}
      {f : Routine φ} {next : Option Lexeme} (hxs : xs = before ++ [⟨.word x.name.toList, pos⟩])
      (hleaves : Leaves h c before c₁) (hvalue : c₁.symbols.value? x.name = none)
      (hroutine : c₁.symbols.routine? x.name = some f)
      (hnext : ∀ y ∈ next, y.token ≠ .opening) : Cause xs next ⟨.syntaxError, pos⟩
  /-- An argument list with a wrong number of arguments is closed. -/
  | mismatch {before inner : List Lexeme} {x : Identifier} {pos opening closing n : Nat}
      {c₁ : Calculator φ ε} {f : Routine φ}
      (hxs : xs = before ++ ⟨.word x.name.toList, pos⟩ :: ⟨.opening, opening⟩ :: inner)
      (hleaves : Leaves h c before c₁) (hvalue : c₁.symbols.value? x.name = none)
      (hroutine : c₁.symbols.routine? x.name = some f) (hinner : IsArgumentList inner n)
      (harity : n ≠ f.arity) : Cause xs (some ⟨.closing, closing⟩) ⟨.argumentMismatch, pos⟩
  /-- The right operand of a division is zero. -/
  | zero {op : Factor} {pos : Nat} {next : Option Lexeme} (hop : op ≠ .times)
      (hmem : ⟨.factor op, pos⟩ ∈ xs) : Cause xs next ⟨.divideByZero, pos⟩
  /-- An argument list is opened behind a group, a literal or a variable. -/
  | uncallable {before : List Lexeme} {a : Atom} {pos : Nat} (hxs : xs = before ++ a.lexemes)
      (ha : ∀ x q, a = .name x q →
        ∃ c₁, Leaves h c before c₁ ∧ c₁.symbols.value? x.name ≠ none) :
      Cause xs (some ⟨.opening, pos⟩) ⟨.syntaxError, pos⟩
  /-- The next token is the first one that no derivation allows. -/
  | misplaced {y : Lexeme} (hbegins : ∃ e : Expression, xs <+: e.lexemes)
      (hends : ∀ e : Expression, ¬ xs ++ [y] <+: e.lexemes) :
      Cause xs (some y) ⟨.syntaxError, y.pos⟩

theorem Stem.Accords.cause {r : Stem} {s : RunningSum} (hr : r.Accords s) {v : Int} {e : Failure}
    (hm : s.multiply v = .error e) {xs before behind : List Lexeme}
    (hxs : xs = before ++ r.lexemes ++ behind) {next : Option Lexeme} : Cause h c xs next e := by
  obtain ⟨op, pos, hop, hmem, rfl⟩ := hr.of_multiply_error hm
  refine .zero hop ?_
  rw [hxs]
  exact List.mem_append_left behind (List.mem_append_right before hmem)

/-- What the token `x` leads to behind the tokens `xs`, which are read into the draft `d`. -/
inductive Draft.Answers (c₁ : Calculator φ ε) (xs : List Lexeme) (d : Draft) (x : Lexeme) :
    Step φ → Prop
  | next {d' : Draft} {s : State φ} (hread : d.read x = some d') (hs : d'.Accords h c c₁ s) :
      Answers c₁ xs d x (.next s)
  | call {d' : Draft} {y : Call φ} {s : State φ} (hread : d.read x = some d')
      (hok : ∀ v s' c₂, s.receive v = .ok s' → d'.Accords h c c₂ s')
      (herror : ∀ v e, s.receive v = .error e → Cause h c xs (some x) e) :
      Answers c₁ xs d x (.call y s)
  | failure {e : Failure} (he : Cause h c xs (some x) e) :
      Answers c₁ xs d x (.stop (.failure e))
  | tooLong : Answers c₁ xs d x (.stop (.fault .numeralTooLong))

end accord

/-- A run of letters and digits is a literal or a name, or it is no numeral despite its first
character. -/
theorem Token.word_cases {w : List Char} (hw : (Token.word w).Proper) :
    (∃ l : Literal, w = l.spelling) ∨ (∃ x : Identifier, w = x.name.toList) ∨
      w.head?.any Char.isDigit ∧ Numeral.read w = .malformed ∧ ∀ l : Literal, l.spelling ≠ w := by
  cases ha : Atom.ofWord? w 0 with
  | none =>
    obtain ⟨hdigit, hread⟩ := Atom.read_of_ofWord?_eq_none hw ha
    refine .inr (.inr ⟨hdigit, hread, ?_⟩)
    rintro l rfl
    cases (Atom.ofWord?_literal l 0).symm.trans ha
  | some a =>
    have hlexemes := Atom.lexemes_ofWord? ha
    cases a with
    | group opening e closing => cases hlexemes
    | literal l pos =>
      obtain ⟨htoken, -⟩ := List.cons.inj hlexemes
      exact .inl ⟨l, (Token.word.inj (Lexeme.mk.inj htoken).1).symm⟩
    | name x pos =>
      obtain ⟨htoken, -⟩ := List.cons.inj hlexemes
      exact .inr (.inl ⟨x, (Token.word.inj (Lexeme.mk.inj htoken).1).symm⟩)

namespace Draft

section answers

variable {h : Host φ ε} {c c₁ : Calculator φ ε} {xs : List Lexeme} {d : Draft} {x : Lexeme}

theorem answers_misplaced (hrun : run xs {} = some d) (hread : d.read x = none) :
    d.Answers h c c₁ xs x (.fail .syntaxError x.pos) :=
  .failure (.misplaced (exists_run_iff.mp ⟨d, hrun⟩) (not_prefix_of_read hrun hread))

theorem answers_readWord (hd : d.Awaits) {s : State φ} (hr : d.stem.Accords s.sum)
    (hes : Frame.Accords h c d.frames s.enclosures)
    (hleaves : Leaves h c (Frame.lexemesOf d.frames ++ d.stem.lexemes) c₁) {w : List Char}
    (hw : (Token.word w).Proper) (pos : Nat) :
    d.Answers h c c₁ xs ⟨.word w, pos⟩ (s.readWord c₁.symbols w pos) := by
  obtain ⟨dphase, r, frames⟩ := d
  obtain ⟨phase, sum, es⟩ := s
  rcases Token.word_cases hw with ⟨l, rfl⟩ | ⟨x, rfl⟩ | ⟨hdigit, hread, hliteral⟩
  · have hread : read ⟨.word l.spelling, pos⟩ ⟨dphase, r, frames⟩ =
        some ⟨.atom (.literal l pos), r, frames⟩ := by
      rw [read_word hd, Atom.ofWord?_literal, Option.map_some]
    rw [State.readWord_literal]
    by_cases hl : l.TooLong
    · rw [if_pos hl]
      exact .tooLong
    · rw [if_neg hl]
      exact .next hread (.value hr hes (by rintro _ _ ⟨⟩))
  · have hread : read ⟨.word x.name.toList, pos⟩ ⟨dphase, r, frames⟩ =
        some ⟨.atom (.name x pos), r, frames⟩ := by
      rw [read_word hd, Atom.ofWord?_name, Option.map_some]
    cases hvalue : c₁.symbols.value? x.name with
    | some v =>
      rw [State.readWord_variable hvalue]
      refine .next hread (.value hr hes ?_)
      rintro _ _ ⟨⟩
      exact ⟨c₁, hleaves, by rw [hvalue]; exact Option.some_ne_none v⟩
    | none =>
      rw [State.readWord_name hvalue]
      exact .next hread (.name hr hes hleaves hvalue)
  · simp only [State.readWord, if_pos hdigit, hread]
    exact .failure (.literal hdigit hliteral)

theorem answers_readOperand (hrun : run xs {} = some d) (hd : d.Awaits)
    (hread : d.read x = d.readOperand x) {s : State φ} (hr : d.stem.Accords s.sum)
    (hes : Frame.Accords h c d.frames s.enclosures) (hleaves : Leaves h c xs c₁)
    (hx : x.token.Proper) : d.Answers h c c₁ xs x (s.readOperand c₁.symbols x) := by
  have hxs : Frame.lexemesOf d.frames ++ d.stem.lexemes = xs := by
    rw [← lexemes_of_awaits hd, (run_invariant tidy_initial hrun).2]
    rfl
  obtain ⟨t, pos⟩ := x
  cases t with
  | word w =>
    rw [← hxs] at hleaves
    exact answers_readWord hd hr hes hleaves hx pos
  | sign minus => exact .next hread (.operand hr hes)
  | opening => exact .next hread (.operand Stem.accords_initial (.group hr hes))
  | _ => exact answers_misplaced hrun hread

theorem answers_close {outer : Stem} {u : Signed} {around : List Frame} {s : RunningSum}
    {es : List (Enclosure φ)} {y : Identifier} {pos opening : Nat} {inner : List Lexeme}
    {f : Routine φ} {vs : List Int} {c₀ : Calculator φ ε} (hx : x.token = .closing)
    (hread : d.read x = some (take ⟨.operand, outer, around⟩ u))
    (hxs : xs = (Frame.lexemesOf around ++ outer.lexemes) ++
      ⟨.word y.name.toList, pos⟩ :: ⟨.opening, opening⟩ :: inner)
    (hleaves : Leaves h c (Frame.lexemesOf around ++ outer.lexemes) c₀)
    (hvalue : c₀.symbols.value? y.name = none) (hroutine : c₀.symbols.routine? y.name = some f)
    (hinner : IsArgumentList inner vs.length) (houter : outer.Accords s)
    (haround : Frame.Accords h c around es) (closing : Nat) :
    d.Answers h c c₁ xs x (State.close ⟨f, vs, pos, closing⟩ s es) := by
  unfold State.close
  split
  · refine .call hread ?_ ?_
    · intro v s' c₂ hreceive
      rcases State.receive_cases ⟨.operand, s, es⟩ v with ⟨p, -, hok⟩ | ⟨e, -, herror⟩
      · obtain rfl := Except.ok.inj (hok.symm.trans hreceive)
        exact .term _ p haround
      · cases herror.symm.trans hreceive
    · intro v e hreceive
      rcases State.receive_cases ⟨.operand, s, es⟩ v with ⟨p, -, hok⟩ | ⟨e', hm, herror⟩
      · cases hok.symm.trans hreceive
      · obtain rfl := Except.error.inj (herror.symm.trans hreceive)
        exact houter.cause h c hm hxs
  · next harity =>
    obtain ⟨t, q⟩ := x
    subst hx
    exact .failure (.mismatch hxs hleaves hvalue hroutine hinner harity)

theorem answers_readOperator {m : Term} {r : Stem} {frames : List Frame}
    (hrun : run xs {} = some d) (hread : d.read x = readOperator x m ⟨.term m, r, frames⟩)
    (hr : r.product = none ∧ r.signs = [])
    (hxs : xs = Frame.lexemesOf frames ++ r.lexemes ++ m.lexemes) {s : State φ}
    (hes : Frame.Accords h c frames s.enclosures) (p : Int) :
    d.Answers h c c₁ xs x (s.readOperator x p) := by
  obtain ⟨phase, sum, es⟩ := s
  obtain ⟨t, pos⟩ := x
  cases t with
  | sign minus => exact .next hread (.operand rfl hes)
  | factor op => exact .next hread (.operand rfl hes)
  | comma =>
    cases hes with
    | nil => exact answers_misplaced hrun hread
    | group houter haround => exact answers_misplaced hrun hread
    | call hleaves hvalue hroutine hlength houter haround =>
      refine .next hread (.operand Stem.accords_initial
        (.call hleaves hvalue hroutine ?_ houter haround))
      rw [List.length_append, hlength]
      exact (Arguments.count_extend _ _).symm
  | closing =>
    cases hes with
    | nil => exact answers_misplaced hrun hread
    | group houter haround => exact .next hread (.value houter haround (by rintro _ _ ⟨⟩))
    | @call outer s' y pos' opening args around es f vs c₀ hleaves hvalue hroutine hlength houter
        haround =>
      let inner := Arguments.extend args (r.expression m)
      have hinner : xs = (Frame.lexemesOf around ++ outer.lexemes) ++
          ⟨.word y.name.toList, pos'⟩ :: ⟨.opening, opening⟩ :: inner.lexemes := by
        obtain ⟨total, product, signs⟩ := r
        obtain ⟨rfl, rfl⟩ := hr
        rw [hxs, Arguments.lexemes_extend, Stem.lexemes_expression]
        simp [Frame.lexemesOf, Frame.lexemes, Atom.lexemes]
      refine answers_close rfl hread hinner hleaves hvalue hroutine (.inr ⟨inner, rfl, ?_⟩) houter
        haround pos
      rw [List.length_append, hlength]
      exact (Arguments.count_extend _ _).symm
  | _ =>
    have hnone : d.read ⟨_, pos⟩ = none := hread.trans (by cases frames <;> rfl)
    cases es <;> exact answers_misplaced hrun hnone

theorem Accords.answers_read {s : State φ} (hs : d.Accords h c c₁ s) (hrun : run xs {} = some d)
    (hstands : Stands h c xs s c₁) (hx : x.token.Proper) :
    d.Answers h c c₁ xs x (s.read c₁.symbols x) := by
  have hinvariant := run_invariant tidy_initial hrun
  have hxs : xs = d.lexemes := hinvariant.2.symm
  cases hs with
  | @arguments r sum frames es hr hes =>
    obtain ⟨rfl, outer, callee, opening, around, rfl⟩ := hinvariant.1.frame_of_arguments rfl
    cases hes with
    | @call _ s' y pos' _ _ _ es f vs c₀ hleaves hvalue hroutine hlength houter haround =>
      by_cases hclosing : x.token = .closing
      · obtain ⟨t, pos⟩ := x
        obtain rfl : t = .closing := hclosing
        obtain rfl : vs = [] := List.length_eq_zero_iff.mp hlength
        have hinner : xs = (Frame.lexemesOf around ++ outer.lexemes) ++
            ⟨.word y.name.toList, pos'⟩ :: ⟨.opening, opening⟩ :: [] := by
          rw [hxs]
          simp [Draft.lexemes, Frame.lexemesOf, Frame.lexemes, Atom.lexemes, Stem.lexemes,
            Phase.lexemes]
        exact answers_close rfl rfl hinner hleaves hvalue hroutine (.inl ⟨rfl, rfl⟩) houter haround
          pos
      · rw [State.read_arguments hclosing]
        exact answers_readOperand hrun (.inr rfl) (read_of_awaits (.inr rfl) hclosing) hr
          (.call hleaves hvalue hroutine hlength houter haround) ⟨_, hstands⟩ hx
  | operand hr hes => exact answers_readOperand hrun (.inl rfl) rfl hr hes ⟨_, hstands⟩ hx
  | @name r sum frames es y pos hr hes hleaves hvalue =>
    by_cases hopening : x.token = .opening
    · obtain ⟨t, pos'⟩ := x
      obtain rfl : t = .opening := hopening
      simp only [State.read]
      cases hroutine : c₁.symbols.routine? y.name with
      | some f =>
        exact .next rfl (.arguments Stem.accords_initial
          (.call hleaves hvalue hroutine rfl hr hes))
      | none => exact .failure (.unknown hxs hleaves hvalue hroutine)
    · rw [State.read_name c₁.symbols hopening]
      unfold State.uncalled
      cases hroutine : c₁.symbols.routine? y.name with
      | some f =>
        refine .failure (.uncalled hxs hleaves hvalue hroutine ?_)
        rintro _ ⟨⟩
        exact hopening
      | none => exact .failure (.unknown hxs hleaves hvalue hroutine)
  | @value r sum frames es a v hr hes ha =>
    by_cases hopening : x.token = .opening
    · obtain ⟨t, pos⟩ := x
      obtain rfl : t = .opening := hopening
      exact .failure (.uncallable hxs ha)
    · simp only [State.read, if_neg hopening]
      cases hm : sum.multiply v with
      | error e =>
        exact .failure (hr.cause h c hm hxs)
      | ok p =>
        have htake := lexemes_take ⟨.atom a, r, frames⟩ (.operand (.atom a))
        refine answers_readOperator hrun (if_neg hopening) ⟨rfl, rfl⟩ ?_ hes p
        rw [hxs]
        exact htake.symm
  | term m p hes =>
    exact answers_readOperator hrun rfl (hinvariant.1.stem_of_term m rfl) hxs hes p

theorem Accords.cause_of_finish {s : State φ} (hs : d.Accords h c c₁ s)
    (hrun : run xs {} = some d) {n : Nat} {e : Failure}
    (he : s.finish c₁.symbols n = .failure e) :
    Cause h c xs none e ∨ e = ⟨.syntaxError, n⟩ := by
  have hxs : xs = d.lexemes := (run_invariant tidy_initial hrun).2.symm
  have htotal : ∀ p : Int, (if s.enclosures.isEmpty then Ending.value (s.sum.add p) else
      .failure ⟨.syntaxError, n⟩) = .failure e → e = ⟨.syntaxError, n⟩ := by
    intro p hp
    split at hp
    · cases hp
    · exact (Ending.failure.inj hp).symm
  cases hs with
  | arguments hr hes => exact .inr (Ending.failure.inj he).symm
  | operand hr hes => exact .inr (Ending.failure.inj he).symm
  | @name r sum frames es y pos hr hes hleaves hvalue =>
    obtain rfl := Ending.failure.inj he
    unfold State.uncalled
    cases hroutine : c₁.symbols.routine? y.name with
    | some f => exact .inl (.uncalled hxs hleaves hvalue hroutine nofun)
    | none => exact .inl (.unknown hxs hleaves hvalue hroutine)
  | @value r sum frames es a v hr hes ha =>
    cases hm : sum.multiply v with
    | error e' =>
      simp only [State.finish, hm] at he
      obtain rfl := Ending.failure.inj he
      exact .inl (hr.cause h c hm hxs)
    | ok p =>
      simp only [State.finish, hm] at he
      exact .inr (htotal p he)
  | term m p hes => exact .inr (htotal p he)

end answers

end Draft

section run

variable {h : Host φ ε} {c c₁ : Calculator φ ε} {xs : List Lexeme} {s : State φ}

/-- An evaluation that is under way has read a draft, with which its state agrees. -/
theorem Stands.exists_draft (hs : Stands h c xs s c₁) (hxs : ∀ x ∈ xs, x.token.Proper) :
    ∃ d, Draft.run xs {} = some d ∧ d.Accords h c c₁ s := by
  induction xs using List.reverseRecOn generalizing s c₁ with
  | nil =>
    obtain ⟨calls, hs⟩ := hs
    cases hs
    exact ⟨{}, rfl, .operand Stem.accords_initial .nil⟩
  | append_singleton xs x ih =>
    obtain ⟨s₀, c₀, hs₀, hleads, hcalculator⟩ := hs.exists_of_concat
    obtain ⟨d, hrun, hd⟩ := ih hs₀ fun y hy => hxs y (List.mem_append_left _ hy)
    have hx := hxs x (List.mem_append_right _ (List.mem_singleton_self x))
    have hanswers := hd.answers_read hrun hs₀ hx
    have hrun' : ∀ d', d.read x = some d' → Draft.run (xs ++ [x]) {} = some d' := by
      intro d' hd'
      rw [Draft.run_append, hrun, Option.bind_some, Draft.run_cons, hd']
      rfl
    cases hleads with
    | next hread =>
      obtain rfl := hcalculator s hread
      rw [hread] at hanswers
      cases hanswers with
      | next hread' hs' => exact ⟨_, hrun' _ hread', hs'⟩
    | call hread hcall hreceive =>
      rw [hread] at hanswers
      cases hanswers with
      | call hread' hok herror => exact ⟨_, hrun' _ hread', hok _ _ _ hreceive⟩

/-- A failure has a cause at a token that is the first one not read, or at the end of the text. -/
theorem exists_cause {text : List Char} {e : Failure}
    (he : (evaluate h text c).1 = .failure e) :
    ∃ xs ys, tokens 0 text = xs ++ ys ∧
      (Cause h c xs ys.head? e ∨ ys = [] ∧ e = ⟨.syntaxError, text.length⟩) := by
  have hproper : ∀ x ∈ tokens 0 text, x.token.Proper := fun x hx => proper_of_mem_tokens hx
  rcases evaluation_cases h c text with
    ⟨s, hs, hfinish⟩ | ⟨before, x, behind, s, c₁, htokens, hs, hleads⟩
  · obtain ⟨d, hrun, hd⟩ := hs.exists_draft hproper
    refine ⟨tokens 0 text, [], (List.append_nil _).symm, ?_⟩
    exact (hd.cause_of_finish hrun (hfinish.symm.trans he)).imp_right fun h => ⟨rfl, h⟩
  · rw [htokens] at hproper
    have hx := hproper x (List.mem_append_right before List.mem_cons_self)
    obtain ⟨d, hrun, hd⟩ := hs.exists_draft fun y hy => hproper y (List.mem_append_left _ hy)
    have hanswers := hd.answers_read hrun hs hx
    refine ⟨before, x :: behind, htokens, .inl ?_⟩
    rw [he] at hleads
    cases hleads with
    | stop hread =>
      rw [hread] at hanswers
      cases hanswers with
      | failure hcause => exact hcause
    | failure hread hcall hreceive =>
      rw [hread] at hanswers
      cases hanswers with
      | call hread' hok herror => exact herror _ _ hreceive

end run

end Abacus.Formula
