import Abacus.Formula.Descent
import Abacus.Proofs.Descent.Cursor
import Abacus.Proofs.Evaluation.Nesting
import Abacus.Proofs.Evaluation.Trailing
import Abacus.Proofs.Grammar.Simulation

/-!
# What an evaluation comes to

An evaluation that stands where a cursor stands has the tokens behind the cursor before it. What it
comes to changes neither when the cursor passes over blanks, nor when a token is read and the cursor
passes over it, nor when the state is replaced by one that answers alike to the next token.
-/
namespace Abacus

open Formula

variable {φ ε : Type}

namespace Formula.State

variable {s : State φ} {v : Int}

theorem resume_of_ok {p : Int} (hp : s.sum.multiply v = .ok p) :
    s.resume (.ok v) = .reading { s with phase := .product p } := by
  simp only [resume, receive, hp]
  rfl

theorem resume_of_error {e : Failure} (he : s.sum.multiply v = .error e) :
    s.resume (.ok v) = .ended (.failure e) := by
  simp only [resume, receive, he]
  rfl

section call

variable {symbols : Symbols φ} {x : String}

theorem read_name_function {f : Routine φ} (hf : symbols.routine? x = some f) (pos p : Nat)
    (r : RunningSum) (es : List (Enclosure φ)) :
    read symbols ⟨.ofMark '(', p⟩ ⟨.name x pos, r, es⟩ =
      .next ⟨.arguments, {}, .call f pos [] r :: es⟩ := by
  change read symbols ⟨.opening, p⟩ _ = _
  simp only [read, hf]

theorem read_name_unknown (hf : symbols.routine? x = none) (pos p : Nat) (r : RunningSum)
    (es : List (Enclosure φ)) :
    read symbols ⟨.ofMark '(', p⟩ ⟨.name x pos, r, es⟩ = .fail .unknownIdentifier pos := by
  change read symbols ⟨.opening, p⟩ _ = _
  simp only [read, hf]

end call

theorem readOperator_misplaced {x : Lexeme} (hsign : ∀ minus, x.token ≠ .sign minus)
    (hfactor : ∀ op, x.token ≠ .factor op) (hclosing : x.token ≠ .closing) {p : Int}
    {s : State φ} (hcomma : x.token = .comma → ∃ r es, s.enclosures = .group r :: es) :
    readOperator x p s = .fail .syntaxError x.pos := by
  obtain ⟨t, pos⟩ := x
  cases t with
  | sign minus => exact absurd rfl (hsign minus)
  | factor op => exact absurd rfl (hfactor op)
  | closing => exact absurd rfl hclosing
  | comma =>
    obtain ⟨r, es, hes⟩ := hcomma rfl
    simp only [readOperator, hes]
  | _ => rfl

theorem readOperand_misplaced {symbols : Symbols φ} {x : Lexeme} (hword : ¬ x.token.IsWord)
    (hsign : ∀ minus, x.token ≠ .sign minus) (hopening : x.token ≠ .opening) {s : State φ} :
    readOperand symbols x s = .fail .syntaxError x.pos := by
  obtain ⟨t, pos⟩ := x
  cases t with
  | word w => exact absurd trivial hword
  | sign minus => exact absurd rfl (hsign minus)
  | opening => exact absurd rfl hopening
  | _ => rfl

end Formula.State

namespace Cursor

variable {h : Host φ ε} {c c₁ : Cursor} {ch : Char} {cs : List Char} {x : Lexeme}

def lexemes (c : Cursor) : List Lexeme := tokens c.pos c.rest

def Clear (c : Cursor) (cs : List Char) : Prop :=
  ∀ x ∈ c.lexemes.head?, ∀ ch ∈ cs, x.token ≠ .ofMark ch

theorem lexemes_skipBlanks (c : Cursor) : c.skipBlanks.2.lexemes = c.lexemes := by
  have hblanks : ∀ ch ∈ c.rest.takeWhile isBlank, isBlank ch := fun ch => List.mem_takeWhile_imp
  rw [lexemes, lexemes, rest_skipBlanks]
  conv_rhs => rw [← List.takeWhile_append_dropWhile (p := isBlank) (l := c.rest)]
  exact (tokens_blanks_append hblanks c.pos _).symm

theorem lexemes_of_peek_eq_none (hpeek : c.peek = none) : c.lexemes = [] := by
  rw [lexemes, rest_of_peek_eq_none hpeek]
  rfl

theorem lexemes_of_mark (hpeek : c.peek = some ch) (hb : isBlank ch = false)
    (ha : ch.isAlphanum = false) :
    c.lexemes = ⟨.ofMark ch, c.pos⟩ :: (c.advance 1).lexemes := by
  rw [lexemes, rest_of_peek hpeek, tokens_cons_mark hb ha]
  rfl

theorem wordAt_of_peek (hpeek : c.peek = some ch) (ha : ch.isAlphanum) :
    wordAt c.text c.pos = ch :: (c.advance 1).rest.takeWhile Char.isAlphanum := by
  rw [wordAt, ← rest, rest_of_peek hpeek, List.takeWhile_cons_of_pos ha]

theorem lexemes_of_word (hpeek : c.peek = some ch) (ha : ch.isAlphanum) :
    c.lexemes = ⟨.word (wordAt c.text c.pos), c.pos⟩ ::
      (c.takeWhile Char.isAlphanum).2.lexemes := by
  have hne : wordAt c.text c.pos ≠ [] := by
    rw [wordAt_of_peek hpeek ha]
    exact List.cons_ne_nil _ _
  have hword : ∀ ch ∈ wordAt c.text c.pos, ch.isAlphanum := fun ch => List.mem_takeWhile_imp
  have hapart := apart_dropWhile c.rest
  have hcut : ∀ a ∈ (wordAt c.text c.pos).getLast?, ∀ b ∈ (c.rest.dropWhile Char.isAlphanum).head?,
      ¬ (a.isAlphanum ∧ b.isAlphanum) := by
    rintro a - b hb ⟨-, hba⟩
    rw [hapart b hb] at hba
    cases hba
  have htokens := tokens_append (i := c.pos) hcut
  have hrest : (c.takeWhile Char.isAlphanum).2.rest = c.rest.dropWhile Char.isAlphanum :=
    (c.rest_advance _).trans (drop_length_takeWhile _ _)
  rw [tokens_word hne hword, wordAt, ← rest, List.takeWhile_append_dropWhile] at htokens
  rw [lexemes, lexemes, hrest]
  exact htokens

theorem exists_identifier (hpeek : c.peek = some ch) (ha : ch.isAlpha) :
    ∃ x : Identifier, x.name.toList = wordAt c.text c.pos := by
  have hword := wordAt_of_peek hpeek (Bool.or_eq_true_iff.mpr (.inl ha))
  have hname : isName (String.ofList (wordAt c.text c.pos)) := by
    unfold isName
    rw [String.toList_ofList, hword]
    exact Bool.and_eq_true_iff.mpr ⟨ha, List.all_eq_true.mpr fun _ => List.mem_takeWhile_imp⟩
  exact ⟨⟨_, hname⟩, String.toList_ofList⟩

theorem exists_lexemes_cons (hpeek : c.peek = some ch) (hb : isBlank ch = false) :
    ∃ t xs, c.lexemes = ⟨t, c.pos⟩ :: xs ∧
      (t = .ofMark ch ∧ ch.isAlphanum = false ∨ t.IsWord ∧ ch.isAlphanum) := by
  rw [lexemes, rest_of_peek hpeek]
  exact exists_tokens_cons c.pos hb _

theorem ofMark_inj {a b : Char} (hab : Token.ofMark a = Token.ofMark b) : a = b := by
  have hspelling := congrArg Token.spelling hab
  rw [spelling_ofMark, spelling_ofMark] at hspelling
  exact (List.cons.inj hspelling).1

theorem clear_of_peek (hblank : ∀ ch ∈ c.peek, isBlank ch = false) (hcs : ∀ ch ∈ c.peek, ch ∉ cs) :
    c.Clear cs := by
  intro x hx ch hch htoken
  cases hpeek : c.peek with
  | none =>
    rw [lexemes_of_peek_eq_none hpeek] at hx
    cases hx
  | some ch' =>
    obtain ⟨t, xs, hlexemes, ht⟩ := exists_lexemes_cons hpeek (hblank ch' hpeek)
    rw [hlexemes] at hx
    obtain rfl : ⟨t, c.pos⟩ = x := Option.some.inj hx
    obtain rfl : t = .ofMark ch := htoken
    rcases ht with ⟨hmark, -⟩ | ⟨hword, -⟩
    · obtain rfl := ofMark_inj hmark
      exact hcs ch hpeek hch
    · exact not_isWord_ofMark ch hword

theorem clear_of_peek_eq_none (hpeek : c.peek = none) : c.Clear cs := by
  intro x hx
  rw [lexemes_of_peek_eq_none hpeek] at hx
  cases hx

namespace Clear

theorem skipBlanks (hc : c.Clear cs) {c' : Cursor} (hskip : c' = c.skipBlanks.2) : c'.Clear cs := by
  rwa [hskip, Clear, lexemes_skipBlanks]

theorem ne_factor (hc : c.Clear ['*', '/', '%']) (hx : x ∈ c.lexemes.head?) (op : Factor) :
    x.token ≠ .factor op := by
  cases op with
  | times => exact hc x hx '*' (by decide)
  | quotient => exact hc x hx '/' (by decide)
  | remainder => exact hc x hx '%' (by decide)

theorem ne_sign (hc : c.Clear ['+', '-']) (hx : x ∈ c.lexemes.head?) (minus : Bool) :
    x.token ≠ .sign minus := by
  cases minus with
  | false => exact hc x hx '+' (by decide)
  | true => exact hc x hx '-' (by decide)

end Clear

/-- What an evaluation comes to that stands where the cursor stands. -/
def outlook (h : Host φ ε) (c : Cursor) (e : Evaluation φ ε) : Evaluation φ ε :=
  let e := c.lexemes.foldl (Evaluation.advance h) e
  { e with status := .ended (e.finish c.text.length) }

theorem outlook_ended (r : Ending) (calls : List (Call φ)) (k : Calculator φ ε) :
    c.outlook h ⟨.ended r, calls, k⟩ = ⟨.ended r, calls, k⟩ := by
  rw [outlook, Evaluation.foldl_of_ended h rfl]
  rfl

theorem outlook_skipBlanks (c : Cursor) (e : Evaluation φ ε) :
    c.skipBlanks.2.outlook h e = c.outlook h e := by
  rw [outlook, outlook, lexemes_skipBlanks]
  rfl

theorem outlook_cons (hc : c.lexemes = x :: c₁.lexemes) (htext : c₁.text = c.text)
    (e : Evaluation φ ε) : c₁.outlook h (e.advance h x) = c.outlook h e := by
  rw [outlook, outlook, hc, htext]
  rfl

section outlook

variable {s s' : State φ} {calls : List (Call φ)} {k : Calculator φ ε}

/-- Two states that answer alike to the next token come to the same. -/
theorem outlook_congr (hread : ∀ x ∈ c.lexemes.head?, s.read k.symbols x = s'.read k.symbols x)
    (hfinish : ∀ n, s.finish k.symbols n = s'.finish k.symbols n) :
    c.outlook h ⟨.reading s, calls, k⟩ = c.outlook h ⟨.reading s', calls, k⟩ := by
  cases hc : c.lexemes with
  | nil => simp only [outlook, hc, List.foldl_nil, Evaluation.finish, hfinish]
  | cons x xs =>
    rw [hc] at hread
    simp only [outlook, hc, List.foldl_cons, Evaluation.advance, hread x rfl]

theorem outlook_of_stop {r : Ending} (hread : ∀ x ∈ c.lexemes.head?, s.read k.symbols x = .stop r)
    (hfinish : c.lexemes = [] → s.finish k.symbols c.text.length = r) :
    c.outlook h ⟨.reading s, calls, k⟩ = ⟨.ended r, calls, k⟩ := by
  cases hc : c.lexemes with
  | nil => simp only [outlook, hc, List.foldl_nil, Evaluation.finish, hfinish hc]
  | cons x xs =>
    rw [hc] at hread
    have hended : (⟨.reading s, calls, k⟩ : Evaluation φ ε).advance h x = ⟨.ended r, calls, k⟩ := by
      simp only [Evaluation.advance, hread x rfl]
    have hfold : xs.foldl (Evaluation.advance h) ⟨.ended r, calls, k⟩ = ⟨.ended r, calls, k⟩ :=
      Evaluation.foldl_of_ended h rfl xs
    simp only [outlook, hc, List.foldl_cons, hended, hfold]
    rfl

theorem outlook_misplaced (hc : c.pos ≤ c.text.length)
    (hblank : ∀ ch ∈ c.peek, isBlank ch = false)
    (hread : ∀ x ∈ c.lexemes.head?, s.read k.symbols x = .fail .syntaxError x.pos)
    (hfinish : c.peek = none → ∀ n, s.finish k.symbols n = .failure ⟨.syntaxError, n⟩) :
    c.outlook h ⟨.reading s, calls, k⟩ =
      ⟨.ended (.failure ⟨.syntaxError, c.pos⟩), calls, k⟩ := by
  cases hpeek : c.peek with
  | none =>
    have hend : c.text.length = c.pos :=
      Nat.le_antisymm (of_decide_eq_true (peek_eq_none_iff.mp hpeek)) hc
    have hlexemes := lexemes_of_peek_eq_none hpeek
    refine outlook_of_stop (fun x hx => ?_) fun _ => ?_
    · rw [hlexemes] at hx
      cases hx
    · rw [hfinish hpeek, hend]
  | some ch =>
    obtain ⟨t, xs, hlexemes, -⟩ := exists_lexemes_cons hpeek (hblank ch hpeek)
    rw [hlexemes] at hread
    refine outlook_of_stop (fun x hx => ?_) fun hnil => ?_
    · rw [hlexemes] at hx
      obtain rfl : ⟨t, c.pos⟩ = x := Option.some.inj hx
      exact hread _ rfl
    · cases hlexemes.symm.trans hnil

/-- Behind a product only the total before it matters. -/
theorem outlook_product (p : Int) (r : RunningSum) (es : List (Enclosure φ)) :
    c.outlook h ⟨.reading ⟨.product p, r, es⟩, calls, k⟩ =
      c.outlook h
        ⟨.reading ⟨.product p, { total := r.total, subtract := r.subtract }, es⟩, calls, k⟩ :=
  outlook_congr (fun x _ => State.readOperator_congr x p _ _ r es) fun _ => rfl

/-- Where no factor comes next, the product can be added to the total. -/
theorem outlook_add (hc : c.Clear ['*', '/', '%']) (p : Int) (r : RunningSum)
    (es : List (Enclosure φ)) :
    c.outlook h ⟨.reading ⟨.product (r.add p), {}, es⟩, calls, k⟩ =
      c.outlook h ⟨.reading ⟨.product p, r, es⟩, calls, k⟩ := by
  have hadd := RunningSum.initial_add (r.add p)
  refine outlook_congr (fun x hx => ?_) fun n => ?_
  · have hfactor := hc.ne_factor hx
    obtain ⟨t, pos⟩ := x
    cases t with
    | factor op => exact absurd rfl (hfactor op)
    | sign minus => simp only [State.read, State.readOperator, State.plus, hadd]
    | _ => cases es with
      | nil => rfl
      | cons e es => cases e <;> simp only [State.read, State.readOperator, hadd]
  · simp only [State.finish, hadd]

/-- Where no parenthesis opens next, an operand that has been read can be received. -/
theorem outlook_primary (hc : c.Clear ['(']) (v : Int) (r : RunningSum) (es : List (Enclosure φ)) :
    c.outlook h ⟨(⟨.operand, r, es⟩ : State φ).resume (.ok v), calls, k⟩ =
      c.outlook h ⟨.reading ⟨.primary v, r, es⟩, calls, k⟩ := by
  have hopening : ∀ x ∈ c.lexemes.head?, x.token ≠ .opening :=
    fun x hx => hc x hx '(' List.mem_cons_self
  cases hr : r.multiply v with
  | ok p =>
    rw [State.resume_of_ok hr]
    refine outlook_congr (fun x hx => ?_) fun n => ?_
    · simp only [State.read, if_neg (hopening x hx), hr]
      rw [State.readOperator_congr x p (.product p) .operand,
        State.readOperator_congr x p (.primary v) .operand]
    · simp only [State.finish, hr]
  | error e =>
    rw [State.resume_of_error hr, outlook_ended]
    refine (outlook_of_stop (fun x hx => ?_) fun _ => ?_).symm
    · simp only [State.read, if_neg (hopening x hx), hr]
    · simp only [State.finish, hr]

/-- Where no parenthesis closes next, an argument list begins with an operand. -/
theorem outlook_arguments (hc : c.Clear [')']) (r : RunningSum) (es : List (Enclosure φ)) :
    c.outlook h ⟨.reading ⟨.operand, r, es⟩, calls, k⟩ =
      c.outlook h ⟨.reading ⟨.arguments, r, es⟩, calls, k⟩ := by
  refine outlook_congr (fun x hx => ?_) fun _ => rfl
  exact (State.read_arguments (hc x hx ')' List.mem_cons_self) r es).symm

/-- The signs before an operand can be put into its value. -/
theorem outlook_resume (negate : Bool) (v : Int) (r : RunningSum) (es : List (Enclosure φ)) :
    c.outlook h ⟨(⟨.operand, { r with negate := false }, es⟩ : State φ).resume
        (.ok (if negate then -v else v)), calls, k⟩ =
      c.outlook h
        ⟨(⟨.operand, { r with negate := negate }, es⟩ : State φ).resume (.ok v), calls, k⟩ := by
  have hmultiply : ({ r with negate := false } : RunningSum).multiply (if negate then -v else v) =
      ({ r with negate := negate } : RunningSum).multiply v := by
    simp only [RunningSum.multiply, Bool.false_eq_true, if_false]
  cases hr : ({ r with negate := negate } : RunningSum).multiply v with
  | ok p =>
    rw [State.resume_of_ok (hmultiply.trans hr), State.resume_of_ok hr, outlook_product,
      outlook_product p { r with negate := negate }]
  | error e => rw [State.resume_of_error (hmultiply.trans hr), State.resume_of_error hr]

end outlook

end Cursor

end Abacus
