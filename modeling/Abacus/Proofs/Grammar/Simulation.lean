import Abacus.Proofs.Evaluation.Words
import Abacus.Proofs.Grammar.Growth
import Abacus.Proofs.Grammar.Walk

/-!
# Evaluation walks over drafts

Evaluation by tokens is compared with walks. `State.step` is one step of evaluation as a walk, and
`Draft.walk` walks over an unfinished derivation, to the state that an evaluation has reached by
then. When a token prolongs a draft, the walk over the longer draft is the walk over the shorter
one with one step of evaluation behind it (`Draft.Grows.walk_eq`).
-/
namespace Abacus.Formula

variable {φ ε α β : Type}

def Walk.lift (r : Except Failure α) : Walk φ ε α :=
  match r with
  | .ok a => return a
  | .error e => throw (.failure e)

namespace State

/-- The state without what a complete product has used up of its sum. -/
def settle (s : State φ) : State φ :=
  match s.phase with
  | .product _ => { s with sum := { total := s.sum.total, subtract := s.sum.subtract } }
  | _ => s

/-- An operator behind a complete product asks only for the total before it. -/
theorem readOperator_congr (x : Lexeme) (p : Int) (q q' : Phase) (r : RunningSum)
    (es : List (Enclosure φ)) :
    readOperator x p ⟨q, r, es⟩ =
      readOperator x p ⟨q', { total := r.total, subtract := r.subtract }, es⟩ := by
  obtain ⟨t, pos⟩ := x
  cases t <;> cases es <;> rfl

theorem read_settle (symbols : Symbols φ) (x : Lexeme) (s : State φ) :
    s.settle.read symbols x = s.read symbols x := by
  obtain ⟨phase, sum, enclosures⟩ := s
  cases phase with
  | product p => exact (readOperator_congr x p _ _ sum enclosures).symm
  | _ => rfl

theorem finish_settle (symbols : Symbols φ) (n : Nat) (s : State φ) :
    s.settle.finish symbols n = s.finish symbols n := by
  obtain ⟨phase, sum, enclosures⟩ := s
  cases phase <;> rfl

def step (h : Host φ ε) (x : Lexeme) (s : State φ) : Walk φ ε (State φ) := do
  match s.read (← Walk.symbols) x with
  | .next s => return s.settle
  | .stop r => throw r
  | .call y s => do
    let v ← Walk.call h y
    let s ← Walk.lift (s.receive v)
    return s.settle

end State

def Stem.walkTotal (h : Host φ ε) (r : Stem) : Walk φ ε RunningSum :=
  match r.total with
  | none => return {}
  | some (e, minus, _) => do return { total := ← e.walk h, subtract := minus }

def Stem.negates : List (Bool × Nat) → Bool
  | [] => false
  | s :: signs => negates signs ^^ s.1

def Stem.walk (h : Host φ ε) (r : Stem) : Walk φ ε RunningSum := do
  let s ← r.walkTotal h
  match r.product with
  | none => return { s with negate := negates r.signs }
  | some (m, op, pos) => do
    let p ← m.walk h
    return { s with product := some (p, op, pos), negate := negates r.signs }

def Frame.walkArguments (h : Host φ ε) : Option (Arguments × Nat) → Walk φ ε (List Int)
  | none => return []
  | some (args, _) => args.walk h

def Frame.walk (h : Host φ ε) : Frame → Walk φ ε (Enclosure φ)
  | .group outer _ => do return .group (← outer.walk h)
  | .call outer callee opening args => do
    let r ← outer.walk h
    let (f, pos) ← Walk.function opening (← callee.walk h)
    return .call f pos (← walkArguments h args) r

def Frame.walkAll (h : Host φ ε) : List Frame → Walk φ ε (List (Enclosure φ))
  | [] => return []
  | f :: around => do
    let es ← walkAll h around
    return (← f.walk h) :: es

def Sense.phase : Sense → Phase
  | .value n => .primary n
  | .name x pos => .name x pos

def Draft.Phase.walk (h : Host φ ε) (es : List (Enclosure φ)) (r : RunningSum) :
    Draft.Phase → Walk φ ε (State φ)
  | .arguments => return ⟨.arguments, r, es⟩
  | .operand => return ⟨.operand, r, es⟩
  | .atom a => do return ⟨(← a.walk h).phase, r, es⟩
  | .term m => do return ⟨.product (← m.walk h), r, es⟩

/-- The walk over a draft, to the state of an evaluation that has come so far. -/
def Draft.walk (h : Host φ ε) (d : Draft) : Walk φ ε (State φ) := do
  let es ← Frame.walkAll h d.frames
  let r ← d.stem.walk h
  d.phase.walk h es r

theorem Stem.walk_signed (h : Host φ ε) (signs : List (Bool × Nat)) (u : Signed) :
    (signs.foldl (fun u s => Signed.sign s.1 s.2 u) u).walk h =
      (do let v ← u.walk h; return if negates signs then -v else v) := by
  induction signs generalizing u with
  | nil => simp [negates]
  | cons s signs ih =>
    rw [List.foldl_cons, ih, Signed.walk, bind_assoc]
    refine bind_congr fun v => ?_
    rw [pure_bind]
    obtain ⟨minus, pos⟩ := s
    cases hn : negates signs <;> cases minus <;> simp [negates, hn]

theorem Walk.lift_ok_bind (a : α) (f : α → Walk φ ε β) : Walk.lift (.ok a) >>= f = f a :=
  pure_bind a f

theorem Factor.walk_eq_lift (s : RunningSum) (op : Factor) (pos : Nat) (a v : Int) :
    (op.walk pos a (if s.negate then -v else v) : Walk φ ε Int) =
      Walk.lift ({ s with product := some (a, op, pos) }.multiply v) := by
  cases op with
  | times => rfl
  | quotient | remainder =>
    unfold Factor.walk RunningSum.multiply Factor.apply
    by_cases hv : (if s.negate then -v else v) = 0 <;> simp [hv] <;> rfl

/-- An operand is multiplied into the product before it, which is used up then. -/
theorem Stem.walk_term (h : Host φ ε) (r : Stem) (u : Signed)
    (k : RunningSum → Int → Walk φ ε β) :
    (do
      let s ← ({ total := r.total } : Stem).walk h
      let p ← (r.term u).walk h
      k s p) = (do
      let s ← r.walk h
      let v ← u.walk h
      let p ← Walk.lift (s.multiply v)
      k { total := s.total, subtract := s.subtract } p) := by
  obtain ⟨total, product, signs⟩ := r
  have htotal : ∀ f g : RunningSum → Walk φ ε β,
      (∀ a b, f { total := a, subtract := b } = g { total := a, subtract := b }) →
      (Stem.walkTotal h ⟨total, none, []⟩ >>= f) =
        (Stem.walkTotal h ⟨total, product, signs⟩ >>= g) := by
    intro f g hfg
    cases total with
    | none => exact hfg 0 false
    | some t =>
      simp only [Stem.walkTotal, bind_assoc, pure_bind]
      exact bind_congr fun v => hfg v t.2.1
  simp only [Stem.walk, bind_assoc, pure_bind, Stem.negates]
  refine htotal _ _ fun a b => ?_
  cases product with
  | none =>
    simp only [Stem.term, Stem.signed, Term.walk, Stem.walk_signed, bind_assoc, pure_bind]
    rfl
  | some q =>
    obtain ⟨m, op, pos⟩ := q
    simp only [Stem.term, Stem.signed, Term.walk, Stem.walk_signed, bind_assoc, pure_bind]
    refine bind_congr fun q => bind_congr fun v => ?_
    exact congrArg (· >>= _)
      (Factor.walk_eq_lift ⟨a, b, none, Stem.negates signs⟩ op pos q v)

theorem Draft.walk_take (h : Host φ ε) (d : Draft) (u : Signed) :
    (d.take u).walk h = (do
      let es ← Frame.walkAll h d.frames
      let s ← d.stem.walk h
      let v ← u.walk h
      let p ← Walk.lift (s.multiply v)
      return ⟨.product p, { total := s.total, subtract := s.subtract }, es⟩) :=
  bind_congr fun _ => Stem.walk_term h d.stem u _

theorem Walk.symbols_bind_const (w : Walk φ ε α) : (Walk.symbols >>= fun _ => w) = w := rfl

theorem Walk.lift_map (r : Except Failure α) (f : α → β) :
    (Walk.lift (r.map f) : Walk φ ε β) = f <$> Walk.lift r := by
  cases r <;> rfl

namespace State

theorem step_of_next {h : Host φ ε} {x : Lexeme} (s s' : State φ)
    (hs : ∀ symbols, s.read symbols x = .next s') : s.step h x = return s'.settle := by
  simp only [step, hs]
  exact Walk.symbols_bind_const _

/-- A token that closes an argument list makes the call and multiplies its value into the product
outside. -/
theorem step_of_close {h : Host φ ε} {x : Lexeme} {s : State φ} {y : Call φ}
    {outer : RunningSum} {around : List (Enclosure φ)}
    (hs : ∀ symbols, s.read symbols x = close y outer around) :
    s.step h x = (do
      let v ← Walk.call h y
      let p ← Walk.lift (outer.multiply v)
      return ⟨.product p, { total := outer.total, subtract := outer.subtract }, around⟩) := by
  simp only [step, hs, close]
  by_cases ha : y.args.length = y.routine.arity
  · simp only [if_pos ha, receive, Walk.lift_map, bind_map_left]
    exact Walk.symbols_bind_const _
  · simp only [if_neg ha, Walk.call]
    rfl

theorem step_primary (h : Host φ ε) {x : Lexeme} (hx : x.token ≠ .opening) (v : Int)
    (r : RunningSum) (es : List (Enclosure φ)) :
    step h x ⟨.primary v, r, es⟩ = (do
      let p ← Walk.lift (r.multiply v)
      step h x ⟨.product p, { total := r.total, subtract := r.subtract }, es⟩) := by
  cases hr : r.multiply v with
  | error e =>
    simp only [step, State.read, if_neg hx, hr]
    rfl
  | ok p =>
    rw [Walk.lift_ok_bind]
    simp only [step, State.read, if_neg hx, hr]
    rw [readOperator_congr x p _ (.product p)]

theorem read_name (symbols : Symbols φ) {x : Lexeme} (hx : x.token ≠ .opening) (n : String)
    (pos : Nat) (r : RunningSum) (es : List (Enclosure φ)) :
    State.read symbols x ⟨.name n pos, r, es⟩ = .fail (uncalled symbols n) pos := by
  simp only [State.read]
  split
  · next ht _ => exact absurd ht hx
  · next ht _ => exact absurd ht hx
  · rfl

theorem step_name (h : Host φ ε) {x : Lexeme} (hx : x.token ≠ .opening) (n : String) (pos : Nat)
    (r : RunningSum) (es : List (Enclosure φ)) (k : Int → Walk φ ε (State φ)) :
    step h x ⟨.name n pos, r, es⟩ = Walk.value (.name n pos) >>= k := by
  simp only [step, read_name _ hx, Walk.value, bind_assoc]
  refine bind_congr fun symbols => ?_
  unfold uncalled
  cases symbols.routine? n <;> rfl

theorem step_word (h : Host φ ε) {w : List Char} {pos : Nat} {a : Atom}
    (ha : Atom.ofWord? w pos = some a) {s : State φ} (hs : s.Awaits) :
    s.step h ⟨.word w, pos⟩ = (do return { s with phase := (← a.walk h).phase }) := by
  simp only [step, hs.read_word, readWord]
  unfold Atom.ofWord? at ha
  split at ha
  · next hd =>
    obtain ⟨l, hl, rfl⟩ := Option.map_eq_some_iff.mp ha
    obtain rfl := Literal.spelling_of_ofWord? hl
    simp only [hd, if_true, l.read_spelling, Atom.walk, Walk.literal]
    by_cases ht : l.TooLong
    · simp only [if_pos ht]
      rfl
    · simp only [if_neg ht]
      rfl
  · next hd =>
    split at ha
    · next hw =>
      obtain rfl := Option.some.inj ha
      simp only [if_neg hd, Atom.walk, bind_assoc]
      refine bind_congr fun symbols => ?_
      cases symbols.value? (String.ofList w) <;> rfl
    · cases ha

end State

theorem Draft.walk_of_awaits (h : Host φ ε) {d : Draft} (hd : d.Awaits) :
    ∃ q, (q = .operand ∨ q = .arguments) ∧ d.walk h = (do
      let es ← Frame.walkAll h d.frames
      let r ← d.stem.walk h
      return ⟨q, r, es⟩) := by
  obtain ⟨phase, stem, frames⟩ := d
  rcases hd with rfl | rfl
  · exact ⟨.operand, .inl rfl, rfl⟩
  · exact ⟨.arguments, .inr rfl, rfl⟩

theorem Stem.walk_sign (h : Host φ ε) (r : Stem) (minus : Bool) (pos : Nat) :
    ({ r with signs := (minus, pos) :: r.signs } : Stem).walk h =
      (do let s ← r.walk h; return { s with negate := s.negate ^^ minus }) := by
  obtain ⟨total, product, signs⟩ := r
  cases product <;> simp only [Stem.walk, bind_assoc, pure_bind] <;> rfl

theorem Stem.walk_total (h : Host φ ε) (e : Expression) (minus : Bool) (pos : Nat) :
    ({ total := some (e, minus, pos) } : Stem).walk h =
      (do return { total := ← e.walk h, subtract := minus }) := by
  simp only [Stem.walk, Stem.walkTotal, bind_assoc, pure_bind]
  rfl

theorem Stem.walk_expression (h : Host φ ε) {r : Stem} (hr : r.product = none ∧ r.signs = [])
    (m : Term) (k : Int → Walk φ ε β) :
    ((r.expression m).walk h >>= k) =
      (do let s ← r.walk h; let p ← m.walk h; k (s.add p)) := by
  obtain ⟨total, product, signs⟩ := r
  obtain ⟨rfl, rfl⟩ := hr
  cases total with
  | none => simp [Stem.expression, Expression.walk, Stem.walk, Stem.walkTotal, RunningSum.add]
  | some t =>
    obtain ⟨e, minus, pos⟩ := t
    simp only [Stem.expression, Expression.walk, Stem.walk, Stem.walkTotal, bind_assoc, pure_bind]
    rfl

theorem Arguments.walk_extend (h : Host φ ε) (args : Option (Arguments × Nat)) (e : Expression) :
    (Arguments.extend args e).walk h = (do
      let vs ← Frame.walkArguments h args
      let v ← e.walk h
      return vs ++ [v]) := by
  cases args with
  | none => simp [Arguments.extend, Arguments.walk, Frame.walkArguments]
  | some a => rfl

/-- The walk over a draft that a token prolongs is one step of evaluation longer. -/
theorem Draft.Grows.walk_eq (h : Host φ ε) {d d' : Draft} {x : Lexeme} (hg : d.Grows x d')
    (hd : d.Tidy) : d'.walk h = d.walk h >>= State.step h x := by
  induction hg with
  | word hw ha =>
    obtain ⟨q, hq, hwalk⟩ := Draft.walk_of_awaits h hw
    simp only [hwalk, bind_assoc, pure_bind, State.step_word h ha (s := ⟨q, _, _⟩) hq]
    rfl
  | sign minus pos hw =>
    obtain ⟨q, hq, hwalk⟩ := Draft.walk_of_awaits h hw
    rw [hwalk]
    simp only [bind_assoc, pure_bind, Draft.walk, Stem.walk_sign]
    refine bind_congr fun es => bind_congr fun r => ?_
    rw [State.step_of_next _ ⟨.operand, { r with negate := r.negate ^^ minus }, es⟩]
    · rfl
    · rcases hq with rfl | rfl <;> exact fun _ => rfl
  | group pos hw =>
    obtain ⟨q, hq, hwalk⟩ := Draft.walk_of_awaits h hw
    rw [hwalk]
    simp only [bind_assoc, pure_bind, Draft.walk, Frame.walkAll, Frame.walk]
    refine bind_congr fun es => bind_congr fun r => ?_
    rw [State.step_of_next _ ⟨.operand, {}, .group r :: es⟩]
    · rfl
    · rcases hq with rfl | rfl <;> exact fun _ => rfl
  | nullary r outer callee opening pos around =>
    obtain rfl : r = {} := (hd.frame_of_arguments rfl).1
    rw [Draft.walk_take]
    simp only [Draft.walk, Frame.walkAll, Frame.walk, Signed.walk, Operand.walk, bind_assoc,
      pure_bind]
    refine bind_congr fun es => bind_congr fun s => bind_congr fun sense => bind_congr fun f => ?_
    exact (State.step_of_close fun _ => rfl).symm
  | callee a r pos around =>
    simp only [Draft.walk, Frame.walkAll, Frame.walk, bind_assoc, Draft.Phase.walk, pure_bind]
    refine bind_congr fun es => bind_congr fun s => bind_congr fun sense => ?_
    cases sense with
    | value v => rfl
    | name n p =>
      simp only [Walk.function, bind_assoc, State.step, Sense.phase, State.read]
      refine bind_congr fun symbols => ?_
      cases symbols.routine? n <;> rfl
  | @settle a r around x d' hx hg ih =>
    -- An atom that is not called is an operand by now; the token is read behind it.
    rw [ih (Draft.tidy_take _ _), Draft.walk_take]
    simp only [Draft.walk, bind_assoc, Draft.Phase.walk, pure_bind, Signed.walk, Operand.walk]
    refine bind_congr fun es => bind_congr fun s => bind_congr fun sense => ?_
    cases sense with
    | value v => exact (State.step_primary h hx v s es).symm
    | name n p => exact (State.step_name h hx n p s es _).symm
  | plus m r minus pos around =>
    have hr := hd.stem_of_term m rfl
    simp only [Draft.walk, Draft.Phase.walk, bind_assoc, pure_bind, Stem.walk_total,
      Stem.walk_expression h hr]
    refine bind_congr fun es => bind_congr fun s => bind_congr fun p => ?_
    exact (State.step_of_next ⟨.product p, s, es⟩ (.plus p minus ⟨.product p, s, es⟩)
      fun _ => rfl).symm
  | times m r op pos around =>
    obtain ⟨total, product, signs⟩ := r
    obtain ⟨rfl, rfl⟩ := hd.stem_of_term m rfl
    simp only [Draft.walk, Draft.Phase.walk, bind_assoc, pure_bind, Stem.walk]
    refine bind_congr fun es => bind_congr fun s => bind_congr fun p => ?_
    exact (State.step_of_next ⟨.product p, _, es⟩ (.times p op pos ⟨.product p, _, es⟩)
      fun _ => rfl).symm
  | comma m r outer callee opening pos args around =>
    have hr := hd.stem_of_term m rfl
    simp only [Draft.walk, Frame.walkAll, Frame.walk, Draft.Phase.walk, bind_assoc, pure_bind]
    refine bind_congr fun es => bind_congr fun s => bind_congr fun sense => bind_congr fun f => ?_
    simp only [Frame.walkArguments, Arguments.walk_extend, bind_assoc, pure_bind,
      Stem.walk_expression h hr]
    refine bind_congr fun vs => bind_congr fun r => bind_congr fun p => ?_
    exact (State.step_of_next _ ⟨.operand, {}, .call f.1 f.2 (vs ++ [r.add p]) s :: es⟩
      fun _ => rfl).symm
  | call m r outer callee opening pos args around =>
    have hr := hd.stem_of_term m rfl
    rw [Draft.walk_take]
    simp only [Draft.walk, Frame.walkAll, Frame.walk, Draft.Phase.walk, Signed.walk, Operand.walk,
      bind_assoc, pure_bind]
    refine bind_congr fun es => bind_congr fun s => bind_congr fun sense => bind_congr fun f => ?_
    simp only [Arguments.walk_extend, bind_assoc, pure_bind, Stem.walk_expression h hr]
    refine bind_congr fun vs => bind_congr fun r => bind_congr fun p => ?_
    exact (State.step_of_close fun _ => rfl).symm
  | close m r outer opening pos around =>
    have hr := hd.stem_of_term m rfl
    simp only [Draft.walk, Frame.walkAll, Frame.walk, Draft.Phase.walk, Atom.walk, bind_assoc,
      pure_bind, Stem.walk_expression h hr]
    refine bind_congr fun es => bind_congr fun s => bind_congr fun r => bind_congr fun p => ?_
    exact (State.step_of_next _ ⟨.primary (r.add p), s, es⟩ fun _ => rfl).symm

end Abacus.Formula
