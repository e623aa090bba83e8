import Abacus.Proofs.Evaluation.Fairness

/-!
# Formulas inside formulas

Inside a parenthesis, a formula is evaluated like a whole text, as long as it does not fail there:
what is open around it is neither looked at nor changed.
-/
namespace Abacus.Formula

variable {φ ε : Type}

def State.within (base : List (Enclosure φ)) (s : State φ) : State φ :=
  { s with enclosures := s.enclosures ++ base }

def Step.within (base : List (Enclosure φ)) : Step φ → Step φ
  | .next s => .next (s.within base)
  | .call y s => .call y (s.within base)
  | .stop r => .stop r

def Status.within (base : List (Enclosure φ)) : Status φ → Status φ
  | .reading s => .reading (s.within base)
  | .ended r => .ended r

def Evaluation.within (base : List (Enclosure φ)) (e : Evaluation φ ε) : Evaluation φ ε :=
  { e with status := e.status.within base }

/-- Nothing is added to a product that is the whole sum. -/
theorem RunningSum.initial_add (p : Int) : ({} : RunningSum).add p = p := Int.zero_add p

namespace State

variable {base : List (Enclosure φ)} {symbols : Symbols φ}

theorem close_within (y : Call φ) (outer : RunningSum) (around : List (Enclosure φ)) :
    close y outer (around ++ base) = (close y outer around).within base := by
  unfold close
  split <;> rfl

theorem readOperand_within (x : Lexeme) (s : State φ) :
    (s.within base).readOperand symbols x = (s.readOperand symbols x).within base := by
  obtain ⟨t, pos⟩ := x
  cases t with
  | word w =>
    simp only [readOperand, readWord]
    by_cases hd : w.head?.any Char.isDigit
    · rw [if_pos hd, if_pos hd]
      cases Numeral.read w <;> rfl
    · rw [if_neg hd, if_neg hd]
      cases symbols.value? (String.ofList w) <;> rfl
  | _ => rfl

theorem readOperator_within {x : Lexeme} {p : Int} {s : State φ}
    (hstop : ∀ r, s.readOperator x p ≠ .stop r) :
    (s.within base).readOperator x p = (s.readOperator x p).within base := by
  obtain ⟨phase, sum, enclosures⟩ := s
  obtain ⟨t, pos⟩ := x
  cases t with
  | closing =>
    cases enclosures with
    | nil => exact absurd rfl (hstop _)
    | cons e around =>
      cases e with
      | group outer => rfl
      | call f at' args outer => exact close_within ⟨f, args ++ [sum.add p], at', pos⟩ outer around
  | comma =>
    cases enclosures with
    | nil => exact absurd rfl (hstop _)
    | cons e around =>
      cases e with
      | group outer => rfl
      | call f at' args outer => rfl
  | _ => cases enclosures <;> cases base <;> rfl

/-- A token that does not end the evaluation has the same effect inside a parenthesis. -/
theorem read_within {x : Lexeme} {s : State φ} (hstop : ∀ r, s.read symbols x ≠ .stop r) :
    (s.within base).read symbols x = (s.read symbols x).within base := by
  obtain ⟨phase, sum, enclosures⟩ := s
  cases phase with
  | arguments =>
    obtain ⟨t, pos⟩ := x
    cases t with
    | closing =>
      cases enclosures with
      | nil => exact absurd rfl (hstop _)
      | cons e around =>
        cases e with
        | group outer => exact absurd rfl (hstop _)
        | call f at' args outer => exact close_within ⟨f, args, at', pos⟩ outer around
    | word w => exact readOperand_within ⟨.word w, pos⟩ ⟨.arguments, sum, enclosures⟩
    | _ => rfl
  | operand => exact readOperand_within x ⟨.operand, sum, enclosures⟩
  | name n at' =>
    obtain ⟨t, pos⟩ := x
    cases t with
    | opening =>
      simp only [read, within]
      cases symbols.routine? n <;> rfl
    | _ => rfl
  | primary v =>
    by_cases hx : x.token = .opening
    · simp only [read, within, if_pos hx]
      rfl
    · simp only [read, within, if_neg hx] at hstop ⊢
      cases hm : sum.multiply v with
      | error e => rfl
      | ok p =>
        rw [hm] at hstop
        exact readOperator_within hstop
  | product p => exact readOperator_within hstop

theorem resume_within (s : State φ) (r : Except Fault Int) :
    (s.within base).resume r = (s.resume r).within base := by
  cases r with
  | error e => rfl
  | ok v =>
    simp only [resume, receive, within]
    cases s.sum.multiply v <;> rfl

/-- Where an argument list has just been opened, an operand may come next. -/
theorem read_arguments {x : Lexeme} (hx : x.token ≠ .closing) (sum : RunningSum)
    (es : List (Enclosure φ)) :
    read symbols x ⟨.arguments, sum, es⟩ = read symbols x ⟨.operand, sum, es⟩ := by
  obtain ⟨t, pos⟩ := x
  cases t with
  | closing => exact absurd rfl hx
  | _ => rfl

/-- Behind a formula that has a value, a closing parenthesis or a comma finds that value. -/
theorem read_end_of_finish {s : State φ} {n : Nat} {v : Int}
    (hv : s.finish symbols n = .value v) {x : Lexeme}
    (hx : x.token = .closing ∨ x.token = .comma) :
    (s.within base).read symbols x = read symbols x ⟨.product v, {}, base⟩ := by
  obtain ⟨t, pos⟩ := x
  have hread : ∀ (q : Phase) (sum : RunningSum) (p : Int), sum.add p = v →
      readOperator ⟨t, pos⟩ p ⟨q, sum, base⟩ =
        readOperator ⟨t, pos⟩ v ⟨.product v, {}, base⟩ := by
    intro q sum p hp
    have hzero : ({} : RunningSum).add v = sum.add p := by
      rw [hp]
      exact RunningSum.initial_add v
    rcases hx with rfl | rfl <;> cases base with
    | nil => rfl
    | cons e around => cases e <;> simp only [readOperator, hzero]
  have hopening : t ≠ .opening := by
    rcases hx with rfl | rfl <;> exact nofun
  obtain ⟨phase, sum, enclosures⟩ := s
  have htotal : ∀ p, (if enclosures.isEmpty then Ending.value (sum.add p)
      else .failure ⟨.syntaxError, n⟩) = .value v → enclosures = [] ∧ sum.add p = v := by
    intro p hp
    cases enclosures with
    | nil => exact ⟨rfl, Ending.value.inj hp⟩
    | cons e around => cases hp
  cases phase with
  | primary w =>
    simp only [finish] at hv
    cases hm : sum.multiply w with
    | error e =>
      rw [hm] at hv
      cases hv
    | ok p =>
      rw [hm] at hv
      obtain ⟨rfl, hp⟩ := htotal p hv
      simp only [read, within, hm, if_neg hopening]
      exact hread _ sum p hp
  | product p =>
    obtain ⟨rfl, hp⟩ := htotal p hv
    exact hread _ sum p hp
  | _ => cases hv

end State

namespace Evaluation

variable {base : List (Enclosure φ)}

theorem advance_within (h : Host φ ε) {e : Evaluation φ ε} {x : Lexeme} {s : State φ}
    (hs : (e.advance h x).status = .reading s) :
    (e.within base).advance h x = (e.advance h x).within base := by
  obtain ⟨status, calls, c⟩ := e
  cases status with
  | ended r => rfl
  | reading s₀ =>
    simp only [advance] at hs
    have hstop : ∀ r, s₀.read c.symbols x ≠ .stop r := by
      intro r hr
      rw [hr] at hs
      cases hs
    simp only [within, Status.within, advance, State.read_within hstop]
    cases s₀.read c.symbols x with
    | next s₁ => rfl
    | stop r => rfl
    | call y s₁ =>
      simp only [Step.within, State.resume_within]
      rfl

/-- A formula that does not fail takes the same course inside a parenthesis. -/
theorem foldl_within (h : Host φ ε) {xs : List Lexeme} {e : Evaluation φ ε} {s : State φ}
    (hs : (xs.foldl (advance h) e).status = .reading s) :
    xs.foldl (advance h) (e.within base) = (xs.foldl (advance h) e).within base := by
  induction xs generalizing e with
  | nil => rfl
  | cons x xs ih =>
    cases hx : (e.advance h x).status with
    | ended r =>
      rw [List.foldl_cons, foldl_of_ended h hx, hx] at hs
      cases hs
    | reading s₁ =>
      rw [List.foldl_cons, advance_within h hx]
      exact ih hs

/-- A formula that has a value as a whole text acts like this value inside a parenthesis. -/
theorem foldl_append_end (h : Host φ ε) {xs : List Lexeme} {calls : List (Call φ)}
    {c : Calculator φ ε} {e : Evaluation φ ε}
    (he : xs.foldl (advance h) ⟨.reading {}, calls, c⟩ = e) {n : Nat} {v : Int}
    (hv : e.finish n = .value v) {x : Lexeme}
    (hx : x.token = .closing ∨ x.token = .comma) {q : Phase}
    (hq : q = .operand ∨ q = .arguments) :
    (xs ++ [x]).foldl (advance h) ⟨.reading ⟨q, {}, base⟩, calls, c⟩ =
      advance h ⟨.reading ⟨.product v, {}, base⟩, e.calls, e.calculator⟩ x := by
  have hwithin : ∀ s, e.status = .reading s →
      xs.foldl (advance h) ⟨.reading ⟨q, {}, base⟩, calls, c⟩ = e.within base := by
    intro s hs
    subst he
    rw [← foldl_within h hs]
    cases xs with
    | nil => cases hv
    | cons y ys =>
      have hy : y.token ≠ .closing := by
        intro hy
        obtain ⟨t, pos⟩ := y
        subst hy
        rw [List.foldl_cons, foldl_of_ended h rfl] at hs
        cases hs
      -- Only a parenthesis that closes tells the two phases apart.
      rcases hq with rfl | rfl
      · rfl
      · have hfirst : advance h ⟨.reading ⟨.arguments, {}, base⟩, calls, c⟩ y =
            advance h ⟨.reading ⟨.operand, {}, base⟩, calls, c⟩ y := by
          simp only [advance, State.read_arguments hy]
        exact congrArg (ys.foldl (advance h)) hfirst
  cases hs : e.status with
  | ended r =>
    have hr : r = .value v := by
      rw [finish, hs] at hv
      exact hv
    have hinit : (⟨.reading {}, calls, c⟩ : Evaluation φ ε).status ≠ .ended (.value v) := by
      intro hr
      cases hr
    exact absurd (hr ▸ hs) (he ▸ status_foldl_ne_value h v xs hinit)
  | reading s =>
    rw [List.foldl_append, hwithin s hs]
    obtain ⟨status, calls', c'⟩ := e
    obtain rfl : status = .reading s := hs
    have hread := (State.read_end_of_finish hv hx : (s.within base).read c'.symbols x = _)
    simp only [List.foldl_cons, List.foldl_nil, within, Status.within, advance, hread]

end Evaluation

end Abacus.Formula
