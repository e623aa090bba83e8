import Abacus.Proofs.Evaluation.Naming
import Abacus.Proofs.Evaluation.Nesting

/-!
# Functions applied to texts

The arguments of a call are evaluated from left to right, each like a text of its own in the
calculator that the one before has left, and the function runs on their values (`eval_apply`).
-/
namespace Abacus.Formula

variable {φ ε : Type} {h : Host φ ε} {c c' : Calculator φ ε} {v : Int}

namespace Evaluation

def after (earlier : List (Call φ)) (e : Evaluation φ ε) : Evaluation φ ε :=
  { e with calls := e.calls ++ earlier }

theorem advance_after (h : Host φ ε) (earlier : List (Call φ)) (e : Evaluation φ ε) (x : Lexeme) :
    (e.after earlier).advance h x = (e.advance h x).after earlier := by
  obtain ⟨status, calls, c⟩ := e
  cases status with
  | ended r => rfl
  | reading s =>
    simp only [after, advance]
    cases s.read c.symbols x <;> rfl

theorem foldl_after (h : Host φ ε) (earlier : List (Call φ)) (xs : List Lexeme)
    (e : Evaluation φ ε) :
    xs.foldl (advance h) (e.after earlier) = (xs.foldl (advance h) e).after earlier := by
  induction xs generalizing e with
  | nil => rfl
  | cons x xs ih => rw [List.foldl_cons, advance_after, ih, List.foldl_cons]

end Evaluation

/-- A text is evaluated alike where it does not begin the formula and calls have been made. -/
theorem foldl_tokens {w : List Char} (hw : evaluate h w c = (.value v, c')) (k : Nat)
    (calls : List (Call φ)) :
    let e := (tokens k w).foldl (Evaluation.advance h) ⟨.reading {}, calls, c⟩
    e.finish (w.length + k) = .value v ∧ e.calculator = c' := by
  have htokens : tokens k w = (tokens 0 w).map (Lexeme.renumber (· + k)) := by
    rw [← tokens_add, Nat.zero_add]
  have hstart : (⟨.reading {}, calls, c⟩ : Evaluation φ ε) =
      (Evaluation.renumber (· + k) { calculator := c }).after calls := rfl
  obtain ⟨hvalue, hcalculator⟩ := Prod.mk.inj hw
  rw [htokens, hstart, Evaluation.foldl_after, Evaluation.foldl_renumber]
  have hfinish := Evaluation.finish_renumber (σ := (· + k)) w.length (evaluation h w c)
  rw [hvalue] at hfinish
  exact ⟨hfinish, hcalculator⟩

/-- Evaluated one after the other, the texts have these values. -/
inductive Yields (h : Host φ ε) : Calculator φ ε → List String → List Int → Calculator φ ε → Prop
  | nil (c : Calculator φ ε) : Yields h c [] [] c
  | cons {c c₁ c' : Calculator φ ε} {t : String} {v : Int} {ts : List String} {vs : List Int}
      (ht : c.eval h (.text t) = (.ok ⟨.value v, none⟩, c₁)) (hts : Yields h c₁ ts vs c') :
      Yields h c (t :: ts) (v :: vs) c'

theorem evaluate_of_eval {t : String} (ht : c.eval h (.text t) = (.ok ⟨.value v, none⟩, c')) :
    evaluate h t.toList c = (.value v, c') := by
  obtain ⟨hvalue, hcalculator⟩ := Prod.mk.inj ht
  exact Prod.ext (Ending.eq_value_of_toOutcome hvalue) hcalculator

def argumentList (ts : List String) : List Char := [','].intercalate (ts.map String.toList)

theorem argumentList_cons (t t' : String) (ts : List String) :
    argumentList (t :: t' :: ts) = t.toList ++ ',' :: argumentList (t' :: ts) := by
  rw [argumentList, List.map_cons, List.map_cons, List.intercalate_cons_cons, List.append_assoc]
  rfl

section arguments

variable {f : Routine φ} {p : Nat}

/-- An argument is evaluated like a text of its own, up to the token behind it. -/
theorem foldl_argument {t : String} (ht : c.eval h (.text t) = (.ok ⟨.value v, none⟩, c'))
    {x : Lexeme} (hx : x.token = .closing ∨ x.token = .comma) (i : Nat) {phase : Phase}
    (hphase : phase = .operand ∨ phase = .arguments) (args : List Int) (calls : List (Call φ)) :
    ∃ calls', (tokens i t.toList ++ [x]).foldl (Evaluation.advance h)
        ⟨.reading ⟨phase, {}, [.call f p args {}]⟩, calls, c⟩ =
      Evaluation.advance h ⟨.reading ⟨.product v, {}, [.call f p args {}]⟩, calls', c'⟩ x := by
  obtain ⟨hvalue, rfl⟩ := foldl_tokens (evaluate_of_eval ht) i calls
  exact ⟨_, Evaluation.foldl_append_end h rfl hvalue hx hphase⟩

theorem advance_product_comma (args : List Int) (calls : List (Call φ)) (i : Nat) :
    (⟨.reading ⟨.product v, {}, [.call f p args {}]⟩, calls, c⟩ : Evaluation φ ε).advance h
        ⟨.comma, i⟩ =
      ⟨.reading ⟨.operand, {}, [.call f p (args ++ [v]) {}]⟩, calls, c⟩ := by
  refine Evaluation.advance_of_next h calls ?_
  change Step.next ⟨.operand, {}, [.call f p (args ++ [({} : RunningSum).add v]) {}]⟩ = _
  rw [RunningSum.initial_add]

theorem advance_product_closing (args : List Int) (calls : List (Call φ)) (q : Nat) :
    (⟨.reading ⟨.product v, {}, [.call f p args {}]⟩, calls, c⟩ : Evaluation φ ε).advance h
        ⟨.closing, q⟩ =
      (⟨.reading ⟨.arguments, {}, [.call f p (args ++ [v]) {}]⟩, calls, c⟩ :
        Evaluation φ ε).advance h ⟨.closing, q⟩ := by
  have hread : State.read c.symbols ⟨.closing, q⟩ ⟨.product v, {}, [.call f p args {}]⟩ =
      State.read c.symbols ⟨.closing, q⟩ ⟨.arguments, {}, [.call f p (args ++ [v]) {}]⟩ := by
    change State.close ⟨f, args ++ [({} : RunningSum).add v], p, q⟩ {} [] = _
    rw [RunningSum.initial_add]
    rfl
  simp only [Evaluation.advance, hread]

/-- Texts up to the parenthesis that closes the list become the arguments. -/
theorem foldl_argumentList_cons {t : String} {ts : List String} {vs : List Int}
    (hts : Yields h c (t :: ts) vs c') (q i : Nat) {phase : Phase}
    (hphase : phase = .operand ∨ phase = .arguments) (args : List Int) (calls : List (Call φ)) :
    ∃ calls', (tokens i (argumentList (t :: ts)) ++ [Lexeme.mk .closing q]).foldl
        (Evaluation.advance h) ⟨.reading ⟨phase, {}, [.call f p args {}]⟩, calls, c⟩ =
      Evaluation.advance h
        ⟨.reading ⟨.arguments, {}, [.call f p (args ++ vs) {}]⟩, calls', c'⟩ ⟨.closing, q⟩ := by
  induction ts generalizing t vs c i phase args calls with
  | nil =>
    obtain _ | ⟨ht, hts⟩ := hts
    cases hts
    obtain ⟨calls', hargument⟩ := foldl_argument (f := f) (p := p) (x := ⟨.closing, q⟩) ht
      (.inl rfl) i hphase args calls
    have hlist : argumentList [t] = t.toList := List.intercalate_singleton
    rw [hlist, hargument, advance_product_closing]
    exact ⟨calls', rfl⟩
  | cons t' ts ih =>
    obtain _ | @⟨_, _, _, _, v, _, vs, ht, hts⟩ := hts
    let x : Lexeme := ⟨.comma, i + t.toList.length⟩
    obtain ⟨calls₁, hargument⟩ := foldl_argument (f := f) (p := p) (x := x) ht (.inr rfl) i hphase
      args calls
    obtain ⟨calls', hrest⟩ := ih hts (i + t.toList.length + 1) (.inl rfl) (args ++ [v]) calls₁
    have htokens : tokens i (argumentList (t :: t' :: ts)) ++ [Lexeme.mk .closing q] =
        (tokens i t.toList ++ [x]) ++ (tokens (i + t.toList.length + 1)
          (argumentList (t' :: ts)) ++ [⟨.closing, q⟩]) := by
      rw [argumentList_cons, tokens_append_mark (by decide) (by decide), List.append_assoc,
        List.append_assoc]
      rfl
    refine ⟨calls', ?_⟩
    rw [htokens, List.foldl_append, hargument, advance_product_comma, hrest, List.append_assoc]
    rfl

theorem foldl_argumentList {ts : List String} {vs : List Int} (hts : Yields h c ts vs c')
    (q i : Nat) :
    ∃ calls', (tokens i (argumentList ts) ++ [Lexeme.mk .closing q]).foldl (Evaluation.advance h)
        ⟨.reading ⟨.arguments, {}, [.call f p [] {}]⟩, [], c⟩ =
      Evaluation.advance h ⟨.reading ⟨.arguments, {}, [.call f p vs {}]⟩, calls', c'⟩
        ⟨.closing, q⟩ := by
  cases ts with
  | nil =>
    cases hts
    exact ⟨[], rfl⟩
  | cons t ts => exact foldl_argumentList_cons hts q i (.inr rfl) [] []

end arguments

def applied (name : String) (ts : List String) : String := name ++ "(" ++ ",".intercalate ts ++ ")"

theorem tokens_applied (x : Identifier) (ts : List String) :
    tokens 0 (applied x.name ts).toList =
      ⟨.word x.name.toList, 0⟩ :: ⟨.opening, x.name.toList.length⟩ ::
        (tokens (x.name.toList.length + 1) (argumentList ts) ++
          [⟨.closing, x.name.toList.length + 1 + (argumentList ts).length⟩]) := by
  have htext : (applied x.name ts).toList =
      x.name.toList ++ '(' :: (argumentList ts ++ ')' :: []) := by
    simp [applied, argumentList, String.toList_intercalate]
  rw [htext, tokens_append_mark (by decide) (by decide), tokens_identifier,
    tokens_append_mark (by decide) (by decide), Nat.zero_add]
  rfl

/-- A function that is called with texts runs on their values, in the calculator that the last one
leaves. -/
theorem eval_apply {x : Identifier} {f : Routine φ} (hvalue : c.symbols.value? x.name = none)
    (hroutine : c.symbols.routine? x.name = some f) {ts : List String} {vs : List Int}
    (hts : Yields h c ts vs c') (harity : vs.length = f.arity) :
    c.eval h (.text (applied x.name ts)) =
      ((f.code.run h vs c').1.map fun v => ⟨.value v, none⟩, (f.code.run h vs c').2) := by
  let i := x.name.toList.length
  let y : Call φ := ⟨f, vs, 0, i + 1 + (argumentList ts).length⟩
  have hname : State.read c.symbols ⟨.word x.name.toList, 0⟩ {} =
      .next { phase := .name x.name 0 } := State.readWord_name hvalue 0 {}
  have hopening : State.read c.symbols ⟨.opening, i⟩ { phase := .name x.name 0 } =
      .next ⟨.arguments, {}, [.call f 0 [] {}]⟩ := by
    simp only [State.read, hroutine]
  have hcall : State.read c'.symbols ⟨.closing, y.closing⟩ ⟨.arguments, {}, [.call f 0 vs {}]⟩ =
      .call y {} := if_pos harity
  obtain ⟨calls, harguments⟩ := foldl_argumentList (f := f) (p := 0) hts y.closing (i + 1)
  have hevaluation : evaluation h (applied x.name ts).toList c =
      ⟨State.resume {} (y.run h c').1, y :: calls, (y.run h c').2⟩ := by
    rw [evaluation, tokens_applied, List.foldl_cons, Evaluation.advance_of_next h [] hname,
      List.foldl_cons, Evaluation.advance_of_next h [] hopening, harguments]
    simp only [Evaluation.advance, hcall]
  rw [y.run_eq_code_run h harity] at hevaluation
  simp only [Calculator.eval, evaluate, hevaluation, toOutcome_resume, y]

end Abacus.Formula
