import Abacus.Proofs.Grammar.Course

/-!
# Rejection

A token that does not prolong the draft read so far ends the evaluation with a failure, unless it
has ended before; so does the end of a text where the draft is no derivation. An evaluation that
ends with a value has therefore read a derivation.
-/
namespace Abacus.Formula

variable {φ ε : Type}

/-- The innermost enclosure is of the kind of the innermost frame. -/
def Encloses : List Frame → List (Enclosure φ) → Prop
  | [], es => es = []
  | .group .. :: _, es => ∃ outer around, es = .group outer :: around
  | .call .. :: _, es => ∃ f pos args outer around, es = .call f pos args outer :: around

theorem Encloses.isEmpty_eq {frames : List Frame} {es : List (Enclosure φ)}
    (h : Encloses frames es) : es.isEmpty = frames.isEmpty := by
  match frames, h with
  | [], h =>
    obtain rfl : es = [] := h
    rfl
  | .group .. :: _, h =>
    obtain ⟨outer, around, rfl⟩ := h
    rfl
  | .call .. :: _, h =>
    obtain ⟨f, pos, args, outer, around, rfl⟩ := h
    rfl

theorem Frame.encloses_of_run (h : Host φ ε) {frames : List Frame} {es : List (Enclosure φ)}
    {j j' : Journal φ ε} (hes : (walkAll h frames).run j = (.ok es, j')) :
    Encloses frames es := by
  cases frames with
  | nil => exact (Walk.eq_of_run_pure hes).1.symm
  | cons f around =>
    obtain ⟨es₁, j₁, -, hf⟩ := Walk.exists_of_run_bind hes
    obtain ⟨e, j₂, he, hpure⟩ := Walk.exists_of_run_bind hf
    obtain ⟨rfl, -⟩ := Walk.eq_of_run_pure hpure
    cases f with
    | group outer opening =>
      obtain ⟨r, j₃, -, hr⟩ := Walk.exists_of_run_bind he
      obtain ⟨rfl, -⟩ := Walk.eq_of_run_pure hr
      exact ⟨r, es₁, rfl⟩
    | call outer callee opening args =>
      obtain ⟨r, j₃, -, he⟩ := Walk.exists_of_run_bind he
      obtain ⟨sense, j₄, -, he⟩ := Walk.exists_of_run_bind he
      obtain ⟨f, j₅, -, he⟩ := Walk.exists_of_run_bind he
      obtain ⟨vs, j₆, -, he⟩ := Walk.exists_of_run_bind he
      obtain ⟨rfl, -⟩ := Walk.eq_of_run_pure he
      exact ⟨f.1, f.2, vs, r, es₁, rfl⟩

inductive Draft.Leads : Draft → State φ → Prop
  | arguments {r : Stem} {frames : List Frame} {s : RunningSum} {es : List (Enclosure φ)}
      (hes : Encloses frames es) : Leads ⟨.arguments, r, frames⟩ ⟨.arguments, s, es⟩
  | operand {r : Stem} {frames : List Frame} {s : RunningSum} {es : List (Enclosure φ)}
      (hes : Encloses frames es) : Leads ⟨.operand, r, frames⟩ ⟨.operand, s, es⟩
  | atom {r : Stem} {frames : List Frame} {s : RunningSum} {es : List (Enclosure φ)}
      (a : Atom) (sense : Sense) (hes : Encloses frames es) :
      Leads ⟨.atom a, r, frames⟩ ⟨sense.phase, s, es⟩
  | term {r : Stem} {frames : List Frame} {s : RunningSum} {es : List (Enclosure φ)}
      (m : Term) (p : Int) (hes : Encloses frames es) :
      Leads ⟨.term m, r, frames⟩ ⟨.product p, s, es⟩

theorem Draft.leads_of_run (h : Host φ ε) {d : Draft} {s : State φ} {j j' : Journal φ ε}
    (hs : (d.walk h).run j = (.ok s, j')) : d.Leads s := by
  obtain ⟨phase, stem, frames⟩ := d
  obtain ⟨es, j₁, hes, hs⟩ := Walk.exists_of_run_bind hs
  obtain ⟨r, j₂, -, hs⟩ := Walk.exists_of_run_bind hs
  have hencloses := Frame.encloses_of_run h hes
  cases phase with
  | arguments =>
    obtain ⟨rfl, -⟩ := Walk.eq_of_run_pure hs
    exact .arguments hencloses
  | operand =>
    obtain ⟨rfl, -⟩ := Walk.eq_of_run_pure hs
    exact .operand hencloses
  | atom a =>
    obtain ⟨sense, j₃, -, hs⟩ := Walk.exists_of_run_bind hs
    obtain ⟨rfl, -⟩ := Walk.eq_of_run_pure hs
    exact .atom a sense hencloses
  | term m =>
    obtain ⟨p, j₃, -, hs⟩ := Walk.exists_of_run_bind hs
    obtain ⟨rfl, -⟩ := Walk.eq_of_run_pure hs
    exact .term m p hencloses

theorem isName_ofList {w : List Char} (hw : (Token.word w).Proper)
    (hd : ¬ w.head?.any Char.isDigit) : isName (String.ofList w) := by
  obtain ⟨hne, hall⟩ := hw
  obtain ⟨c, cs, rfl⟩ := List.exists_cons_of_ne_nil hne
  have hc : c.isAlpha ∨ c.isDigit := by
    simpa [Char.isAlphanum] using hall c List.mem_cons_self
  have hcs : cs.all Char.isAlphanum :=
    List.all_eq_true.mpr fun d hd => hall d (List.mem_cons_of_mem c hd)
  unfold Abacus.isName
  rw [String.toList_ofList]
  exact Bool.and_eq_true_iff.mpr ⟨hc.resolve_right hd, hcs⟩

theorem Atom.read_of_ofWord?_eq_none {w : List Char} {pos : Nat} (hw : (Token.word w).Proper)
    (ha : Atom.ofWord? w pos = none) :
    w.head?.any Char.isDigit ∧ Numeral.read w = .malformed := by
  unfold Atom.ofWord? at ha
  split at ha
  · next hd => exact ⟨hd, Literal.read_eq_malformed hw.2 (Option.map_eq_none_iff.mp ha)⟩
  · next hd =>
    rw [dif_pos (isName_ofList hw hd)] at ha
    cases ha

theorem State.stop_of_readOperand {d : Draft} {x : Lexeme} (hx : x.token.Proper)
    (hd : d.readOperand x = none) (symbols : Symbols φ) (s : State φ) :
    ∃ e, s.readOperand symbols x = .stop (.failure e) := by
  obtain ⟨t, pos⟩ := x
  cases t with
  | word w =>
    obtain ⟨hhead, hread⟩ := Atom.read_of_ofWord?_eq_none hx (Option.map_eq_none_iff.mp hd)
    refine ⟨⟨.invalidLiteral, pos⟩, ?_⟩
    simp only [readOperand, readWord, if_pos hhead, hread]
    rfl
  | sign minus => cases hd
  | opening => cases hd
  | _ => exact ⟨⟨.syntaxError, pos⟩, rfl⟩

theorem State.stop_of_readOperator {d : Draft} {m : Term} {x : Lexeme}
    (hd : d.readOperator x m = none) {s : State φ} (hes : Encloses d.frames s.enclosures)
    (p : Int) : ∃ e, s.readOperator x p = .stop (.failure e) := by
  obtain ⟨dphase, stem, frames⟩ := d
  obtain ⟨phase, sum, es⟩ := s
  obtain ⟨t, pos⟩ := x
  cases t with
  | sign minus => exact absurd hd (Option.some_ne_none _)
  | factor op => exact absurd hd (Option.some_ne_none _)
  | comma =>
    match frames, hes with
    | [], hes =>
      obtain rfl : es = [] := hes
      exact ⟨_, rfl⟩
    | .group .. :: _, hes =>
      obtain ⟨outer, around, rfl⟩ := hes
      exact ⟨_, rfl⟩
    | .call .. :: _, _ => exact absurd hd (Option.some_ne_none _)
  | closing =>
    match frames, hes with
    | [], hes =>
      obtain rfl : es = [] := hes
      exact ⟨_, rfl⟩
    | .group .. :: _, _ => exact absurd hd (Option.some_ne_none _)
    | .call .. :: _, _ => exact absurd hd (Option.some_ne_none _)
  | _ => exact ⟨⟨.syntaxError, pos⟩, by cases es <;> rfl⟩

/-- A token that does not prolong the draft ends the evaluation. -/
theorem Draft.Leads.stop {d : Draft} {s : State φ} (hs : d.Leads s) (hd : d.Tidy) {x : Lexeme}
    (hx : x.token.Proper) (hread : d.read x = none) (symbols : Symbols φ) :
    ∃ e, s.read symbols x = .stop (.failure e) := by
  cases hs with
  | @arguments r frames sum es hes =>
    obtain ⟨-, outer, callee, opening, around, hframes⟩ := hd.frame_of_arguments rfl
    obtain rfl : frames = _ := hframes
    obtain ⟨f, pos, args, outer', around', rfl⟩ := hes
    have hclosing : x.token ≠ .closing := by
      intro hc
      obtain ⟨t, p⟩ := x
      subst hc
      cases hread
    have hoperand := (read_of_awaits (.inr rfl) hclosing).symm.trans hread
    obtain ⟨e, he⟩ := State.stop_of_readOperand hx hoperand symbols ⟨.arguments, sum, _⟩
    refine ⟨e, ?_⟩
    obtain ⟨t, p⟩ := x
    cases t <;> first | exact he | exact absurd rfl hclosing
  | operand hes => exact State.stop_of_readOperand hx hread symbols _
  | @atom r frames sum es a sense hes =>
    have hopening : x.token ≠ .opening := by
      intro ho
      cases (if_pos ho).symm.trans hread
    have hoperator := (if_neg hopening).symm.trans hread
    cases sense with
    | name n pos => exact ⟨_, State.read_name symbols hopening n pos sum es⟩
    | value v =>
      simp only [Sense.phase, State.read, if_neg hopening]
      cases sum.multiply v with
      | error e => exact ⟨e, rfl⟩
      | ok p =>
        exact State.stop_of_readOperator (s := ⟨.primary v, sum, es⟩) hoperator hes p
  | term m p hes => exact State.stop_of_readOperator hread hes p

/-- A text that ends where its draft is no derivation fails. -/
theorem Draft.Leads.finish {d : Draft} {s : State φ} (hs : d.Leads s)
    (hd : d.complete? = none) (symbols : Symbols φ) (n : Nat) :
    ∃ e, s.finish symbols n = .failure e := by
  cases hs with
  | arguments hes => exact ⟨_, rfl⟩
  | operand hes => exact ⟨_, rfl⟩
  | @atom r frames sum es a sense hes =>
    have hframes : frames.isEmpty = false := by
      cases frames with
      | nil => cases hd
      | cons f around => rfl
    cases sense with
    | name x pos => exact ⟨_, rfl⟩
    | value v =>
      simp only [Sense.phase, State.finish]
      cases sum.multiply v with
      | error e => exact ⟨e, rfl⟩
      | ok p => exact ⟨_, if_neg (by rw [hes.isEmpty_eq, hframes]; exact Bool.false_ne_true)⟩
  | @term r frames sum es m p hes =>
    have hframes : frames.isEmpty = false := by
      cases frames with
      | nil => cases hd
      | cons f around => rfl
    exact ⟨_, if_neg (by rw [hes.isEmpty_eq, hframes]; exact Bool.false_ne_true)⟩

/-- An evaluation that is still under way behind some tokens has read a draft. -/
theorem Draft.run_of_reading (h : Host φ ε) {j : Journal φ ε} {xs : List Lexeme}
    (hxs : ∀ x ∈ xs, x.token.Proper) {d : Draft} (hd : d.Tidy) {e : Evaluation φ ε}
    (he : e.settle = .ofResult ((d.walk h).run j)) {s : State φ}
    (hs : (xs.foldl (Evaluation.advance h) e).status = .reading s) :
    ∃ d', d.run xs = some d' := by
  induction xs generalizing d e with
  | nil => exact ⟨d, rfl⟩
  | cons x xs ih =>
    obtain ⟨hx, hxs⟩ := List.forall_mem_cons.mp hxs
    cases hread : d.read x with
    | some d₁ =>
      have hg := grows_of_read hread
      have he₁ : (e.advance h x).settle = .ofResult ((d₁.walk h).run j) := by
        rw [← Evaluation.advance_settle, he, Evaluation.advance_ofResult, hg.walk_eq h hd]
      obtain ⟨d', hd'⟩ := ih hxs hg.tidy he₁ hs
      exact ⟨d', by rw [run_cons, hread, Option.bind_some, hd']⟩
    | none =>
      exfalso
      obtain ⟨r, hr⟩ : ∃ r, (e.advance h x).status = .ended r := by
        rw [← Evaluation.advance_settle, he]
        rcases hw : (d.walk h).run j with ⟨r | s₀, j'⟩
        · exact ⟨r, rfl⟩
        · obtain ⟨f, hf⟩ := (leads_of_run h hw).stop hd hx hread j'.calculator.symbols
          refine ⟨.failure f, ?_⟩
          simp only [Evaluation.ofResult, Evaluation.advance, hf]
      rw [List.foldl_cons, Evaluation.foldl_of_ended h hr, hr] at hs
      cases hs

/-- Only a text that the grammar derives is evaluated to a value, and the walk over its derivation
gives that value. -/
theorem exists_walk_of_value (h : Host φ ε) {text : List Char} {c : Calculator φ ε} {n : Int}
    (hn : (evaluate h text c).1 = .value n) :
    ∃ e, Draft.parse {} (tokens 0 text) = some e ∧
      (e.walk h).run { calculator := c } =
        (.ok n, ⟨(evaluation h text c).calls, (evaluation h text c).calculator⟩) := by
  have hproper : ∀ x ∈ tokens 0 text, x.token.Proper := fun x hx => proper_of_mem_tokens hx
  have hinitial : ({ calculator := c } : Evaluation φ ε).settle =
      .ofResult ((({} : Draft).walk h).run { calculator := c }) := rfl
  cases hstatus : (evaluation h text c).status with
  | ended r =>
    -- No token ends an evaluation with a value.
    have hr : r = .value n := by
      rw [evaluate, Evaluation.finish, hstatus] at hn
      exact hn
    have hinit : ({ calculator := c } : Evaluation φ ε).status ≠ .ended (.value n) := by
      intro hr
      cases hr
    exact absurd (hr ▸ hstatus) (Evaluation.status_foldl_ne_value h n (tokens 0 text) hinit)
  | reading s =>
    obtain ⟨d, hd⟩ := Draft.run_of_reading h hproper Draft.tidy_initial hinitial hstatus
    have hsettle : (evaluation h text c).settle = .ofResult ((d.walk h).run _) :=
      Draft.settle_foldl h { calculator := c } Draft.tidy_initial hd hinitial
    have hfinish : (evaluation h text c).settle.finish text.length = .value n := by
      rw [Evaluation.finish_settle]
      exact hn
    rcases hw : (d.walk h).run { calculator := c } with ⟨r | s₀, j⟩
    · have hended := congrArg Evaluation.status hsettle
      rw [Evaluation.settle, hstatus, hw] at hended
      cases hended
    · rw [hsettle, hw] at hfinish
      have hcalls := Evaluation.calls_settle (evaluation h text c)
      have hcalculator := Evaluation.calculator_settle (evaluation h text c)
      rw [hsettle, hw] at hcalls hcalculator
      cases hc : d.complete? with
      | none =>
        obtain ⟨f, hf⟩ := (Draft.leads_of_run h hw).finish hc j.calculator.symbols text.length
        cases hf.symm.trans hfinish
      | some e =>
        refine ⟨e, by rw [Draft.parse, hd, Option.bind_some, hc], ?_⟩
        have htidy := (Draft.run_invariant Draft.tidy_initial hd).1
        have hvalue : s₀.finish j.calculator.symbols text.length = .value n := hfinish
        rw [Draft.walk_complete h text.length htidy hc, Walk.run_bind, hw, ← hcalls, ← hcalculator]
        exact (State.run_ending s₀ text.length j).trans (by rw [hvalue]; rfl)

end Abacus.Formula
