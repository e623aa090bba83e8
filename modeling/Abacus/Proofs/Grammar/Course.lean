import Abacus.Proofs.Grammar.Simulation

/-!
# The course of an evaluation

As long as the tokens that have been read form a draft, an evaluation stands where the walk over
that draft ends, with the same calls made and the same calculator. A text whose tokens form a
derivation therefore ends like the walk over it (`Expression.evaluation_eq_outcome`).
-/
namespace Abacus.Formula

variable {φ ε α β : Type}

namespace Evaluation

def settle (e : Evaluation φ ε) : Evaluation φ ε :=
  match e.status with
  | .reading s => { e with status := .reading s.settle }
  | .ended _ => e

def ofResult : Except Ending (State φ) × Journal φ ε → Evaluation φ ε
  | (.ok s, j) => ⟨.reading s, j.calls, j.calculator⟩
  | (.error r, j) => ⟨.ended r, j.calls, j.calculator⟩

theorem advance_settle (h : Host φ ε) (e : Evaluation φ ε) (x : Lexeme) :
    e.settle.advance h x = e.advance h x := by
  obtain ⟨status, calls, c⟩ := e
  cases status with
  | ended r => rfl
  | reading s => simp only [settle, advance, State.read_settle]

theorem finish_settle (n : Nat) (e : Evaluation φ ε) : e.settle.finish n = e.finish n := by
  obtain ⟨status, calls, c⟩ := e
  cases status with
  | ended r => rfl
  | reading s => exact State.finish_settle _ n s

theorem calls_settle (e : Evaluation φ ε) : e.settle.calls = e.calls := by
  unfold settle
  split <;> rfl

theorem calculator_settle (e : Evaluation φ ε) : e.settle.calculator = e.calculator := by
  unfold settle
  split <;> rfl

end Evaluation

/-- One step of an evaluation is one step of the walk that it follows. -/
theorem Evaluation.advance_ofResult (h : Host φ ε) (x : Lexeme) (w : Walk φ ε (State φ))
    (j : Journal φ ε) :
    ((ofResult (w.run j)).advance h x).settle = ofResult ((w >>= State.step h x).run j) := by
  rw [Walk.run_bind]
  rcases w.run j with ⟨r | s, j⟩
  · rfl
  · change ((ofResult (.ok s, j)).advance h x).settle = ofResult ((State.step h x s).run j)
    cases hs : s.read j.calculator.symbols x with
    | next s' =>
      simp only [ofResult, advance, State.step, Walk.run_bind, Walk.run_symbols, hs]
      rfl
    | stop r =>
      simp only [ofResult, advance, State.step, Walk.run_bind, Walk.run_symbols, hs]
      rfl
    | call y s' =>
      simp only [ofResult, advance, State.step, Walk.run_bind, Walk.run_symbols, hs,
        Walk.run_call h (State.arity_of_read hs)]
      rcases y.run h j.calculator with ⟨e | v, c⟩
      · rfl
      · simp only [State.resume, Except.mapError]
        cases s'.receive v <;> rfl

/-- While its tokens form a draft, an evaluation stands where the walk over the draft ends. -/
theorem Draft.settle_foldl (h : Host φ ε) (j : Journal φ ε) {xs : List Lexeme} {d d' : Draft}
    {e : Evaluation φ ε} (hd : d.Tidy) (hrun : d.run xs = some d')
    (he : e.settle = .ofResult ((d.walk h).run j)) :
    (xs.foldl (Evaluation.advance h) e).settle = .ofResult ((d'.walk h).run j) := by
  induction xs generalizing d e with
  | nil =>
    obtain rfl := Option.some.inj hrun
    exact he
  | cons x xs ih =>
    obtain ⟨d₁, hx, hxs⟩ := Option.bind_eq_some_iff.mp hrun
    have hg := grows_of_read hx
    refine ih hg.tidy hxs ?_
    rw [← Evaluation.advance_settle, he, Evaluation.advance_ofResult, hg.walk_eq h hd]

def State.ending (n : Nat) (s : State φ) : Walk φ ε Int := do
  match s.finish (← Walk.symbols) n with
  | .value v => return v
  | r => throw r

theorem State.run_ending (s : State φ) (n : Nat) (j : Journal φ ε) :
    (s.ending n).run j =
      (match s.finish j.calculator.symbols n with
        | .value v => .ok v
        | r => .error r, j) := by
  change (match s.finish j.calculator.symbols n with
    | .value v => (return v : Walk φ ε Int)
    | r => throw r).run j = _
  cases s.finish j.calculator.symbols n <;> rfl

theorem Evaluation.finish_ofResult (n : Nat) (w : Walk φ ε (State φ)) (j : Journal φ ε) :
    ((ofResult (w.run j)).finish n,
      Journal.mk (ofResult (w.run j)).calls (ofResult (w.run j)).calculator) =
      Walk.conclude ((w >>= State.ending n).run j) := by
  rw [Walk.run_bind]
  rcases w.run j with ⟨r | s, j⟩
  · rfl
  · change (s.finish j.calculator.symbols n, _) = Walk.conclude ((s.ending n).run j)
    rw [State.run_ending]
    cases s.finish j.calculator.symbols n <;> rfl

/-- The walk over a draft that is a derivation ends like the walk over that derivation. -/
theorem Draft.walk_complete (h : Host φ ε) (n : Nat) {d : Draft} (hd : d.Tidy) {e : Expression}
    (he : d.complete? = some e) : e.walk h = d.walk h >>= State.ending n := by
  obtain ⟨phase, r, frames⟩ := d
  unfold complete? at he
  split at he
  · next a hp hf =>
    obtain rfl : phase = .atom a := hp
    obtain rfl : frames = [] := hf
    obtain rfl := Option.some.inj he
    have hwalk := Stem.walk_expression h (r := { total := r.total }) ⟨rfl, rfl⟩
      (r.term (.operand (.atom a))) pure
    rw [bind_pure, Stem.walk_term] at hwalk
    refine hwalk.trans ?_
    simp only [Draft.walk, Frame.walkAll, Draft.Phase.walk, Signed.walk, Operand.walk, bind_assoc,
      pure_bind]
    refine bind_congr fun s => bind_congr fun sense => ?_
    cases sense with
    | value v =>
      simp only [State.ending, State.finish, Sense.phase, Walk.value, pure_bind]
      cases s.multiply v <;> rfl
    | name x pos =>
      simp only [State.ending, State.finish, Sense.phase, Walk.value, bind_assoc]
      refine bind_congr fun symbols => ?_
      unfold State.uncalled
      cases symbols.routine? x <;> rfl
  · next m hp hf =>
    obtain rfl : phase = .term m := hp
    obtain rfl : frames = [] := hf
    obtain rfl := Option.some.inj he
    have hr := hd.stem_of_term m rfl
    rw [← bind_pure ((r.expression m).walk h), Stem.walk_expression h hr]
    simp only [Draft.walk, Frame.walkAll, Draft.Phase.walk, bind_assoc, pure_bind]
    refine bind_congr fun s => bind_congr fun p => ?_
    exact (Walk.symbols_bind_const _).symm
  · cases he

/-- The evaluation of a text whose tokens are parsed is the walk over the derivation. -/
theorem Expression.evaluation_eq_outcome (h : Host φ ε) (c : Calculator φ ε) {e : Expression}
    {text : List Char} (he : Draft.parse {} (tokens 0 text) = some e) :
    ((evaluation h text c).finish text.length,
      Journal.mk (evaluation h text c).calls (evaluation h text c).calculator) =
      e.outcome h c := by
  obtain ⟨d, hd, hc⟩ := Option.bind_eq_some_iff.mp he
  have hwalk := Draft.settle_foldl h { calculator := c } Draft.tidy_initial hd
    (e := { calculator := c }) rfl
  have hfinish := Evaluation.finish_ofResult text.length (d.walk h) { calculator := c }
  rw [← hwalk, ← Draft.walk_complete h text.length (Draft.run_invariant Draft.tidy_initial hd).1 hc,
    Evaluation.finish_settle] at hfinish
  rwa [Evaluation.calls_settle, Evaluation.calculator_settle] at hfinish

end Abacus.Formula
