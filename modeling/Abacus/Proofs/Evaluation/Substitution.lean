import Abacus.Proofs.Evaluation.Cutting
import Abacus.Proofs.Evaluation.Nesting
import Abacus.Proofs.Evaluation.Purity
import Abacus.Proofs.Evaluation.Words

/-!
# Substitution

Where functions are pure, a formula in parentheses that has a value can be replaced by any other
formula that has this value, in any text. Both texts are compared with a third evaluation, in
which the value stands between the parentheses and takes no room (`filled`).
-/
namespace Abacus.Formula

variable {φ ε : Type}

def past (n k p : Nat) : Nat := if p ≤ n then p else p + k

/-- The evaluation with a complete operand in the place of the one that comes next. -/
def Evaluation.fill (v : Int) (e : Evaluation φ ε) : Evaluation φ ε :=
  match e.status with
  | .reading s => { e with status := .reading ⟨.product v, {}, s.enclosures⟩ }
  | .ended _ => e

def opened (h : Host φ ε) (a : List Char) (c : Calculator φ ε) : Evaluation φ ε :=
  (tokens 0 a ++ [Lexeme.mk .opening a.length]).foldl (Evaluation.advance h) { calculator := c }

/-- How a text ends that has a value and nothing else in a parenthesis between `a` and `b`. -/
def filled (h : Host φ ε) (a b : List Char) (v : Int) (c : Calculator φ ε) : Ending :=
  ((Lexeme.mk .closing (a.length + 1) :: tokens (a.length + 2) b).foldl (Evaluation.advance h)
    ((opened h a c).fill v)).finish (a.length + 2 + b.length)

theorem tokens_enclosed (a w b : List Char) :
    tokens 0 (a ++ '(' :: (w ++ ')' :: b)) =
      tokens 0 a ++ ⟨.opening, a.length⟩ :: (tokens (a.length + 1) w ++
        ⟨.closing, a.length + 1 + w.length⟩ :: tokens (a.length + 1 + w.length + 1) b) := by
  rw [tokens_append_mark (by decide) (by decide), tokens_append_mark (by decide) (by decide),
    Nat.zero_add]
  rfl

theorem past_of_le {n k p : Nat} (h : p ≤ n) : past n k p = p := if_pos h

theorem past_of_lt {n k p : Nat} (h : n < p) : past n k p = p + k := if_neg (Nat.not_le.mpr h)

theorem opened_renumber (h : Host φ ε) (a : List Char) (c : Calculator φ ε) (k : Nat) :
    (opened h a c).renumber (past a.length k) = opened h a c := by
  have hfixed : ∀ x ∈ tokens 0 a ++ [Lexeme.mk .opening a.length],
      x.renumber (past a.length k) = x := by
    intro x hx
    have hpos : x.pos ≤ a.length := by
      rcases List.mem_append.mp hx with hx | hx
      · have hlt := pos_lt_of_mem_tokens hx
        omega
      · rw [List.mem_singleton.mp hx]
    rw [Lexeme.renumber, past_of_le hpos]
  have hmap := List.map_congr_left hfixed
  rw [List.map_id'] at hmap
  rw [opened, ← Evaluation.foldl_renumber, hmap]
  rfl

theorem renumber_behind (n k : Nat) (b : List Char) :
    (Lexeme.mk .closing (n + 1) :: tokens (n + 2) b).map (Lexeme.renumber (past n k)) =
      ⟨.closing, n + 1 + k⟩ :: tokens (n + 1 + k + 1) b := by
  have hclosing : past n k (n + 1) = n + 1 + k := past_of_lt (Nat.lt_succ_self n)
  have hstart : n + 1 + k + 1 = n + 2 + k := by omega
  have hbehind : ∀ x ∈ tokens (n + 2) b, x.renumber (past n k) = x.renumber (· + k) := by
    intro x hx
    have hle := le_pos_of_mem_tokens hx
    have hpos : n < x.pos := by omega
    rw [Lexeme.renumber, past_of_lt hpos]
    rfl
  rw [List.map_cons, hstart, tokens_add (n + 2) k, List.map_congr_left hbehind, Lexeme.renumber,
    hclosing]

theorem State.read_opening (symbols : Symbols φ) {x : Lexeme} (hx : x.token = .opening)
    (s : State φ) :
    (∃ q es, (q = .operand ∨ q = .arguments) ∧ s.read symbols x = .next ⟨q, {}, es⟩) ∨
      ∃ r, s.read symbols x = .stop r := by
  obtain ⟨phase, sum, enclosures⟩ := s
  obtain ⟨t, pos⟩ := x
  obtain rfl : t = .opening := hx
  cases phase with
  | arguments => exact .inl ⟨.operand, _, .inl rfl, rfl⟩
  | operand => exact .inl ⟨.operand, _, .inl rfl, rfl⟩
  | name n at' =>
    simp only [read]
    cases symbols.routine? n with
    | none => exact .inr ⟨_, rfl⟩
    | some f => exact .inl ⟨.arguments, _, .inr rfl, rfl⟩
  | primary v => exact .inr ⟨_, rfl⟩
  | product p => exact .inr ⟨.failure ⟨.syntaxError, pos⟩, by cases enclosures <;> rfl⟩

theorem opened_cases (h : Host φ ε) (a : List Char) (c : Calculator φ ε) :
    (∃ r, (opened h a c).status = .ended r) ∨
      ∃ q es, (q = .operand ∨ q = .arguments) ∧
        (opened h a c).status = .reading ⟨q, {}, es⟩ := by
  have hopened : opened h a c =
      ((tokens 0 a).foldl (Evaluation.advance h) { calculator := c }).advance h
        ⟨.opening, a.length⟩ := by
    rw [opened, List.foldl_append]
    rfl
  rw [hopened]
  generalize (tokens 0 a).foldl (Evaluation.advance h) { calculator := c } = e
  obtain ⟨status, calls, c'⟩ := e
  cases status with
  | ended r => exact .inl ⟨r, rfl⟩
  | reading s =>
    rcases s.read_opening c'.symbols (x := ⟨.opening, a.length⟩) rfl with
      ⟨q, es, hq, hread⟩ | ⟨r, hread⟩
    · exact .inr ⟨q, es, hq, by simp only [Evaluation.advance, hread]⟩
    · exact .inl ⟨r, by simp only [Evaluation.advance, hread]⟩

theorem Evaluation.fill_renumber (σ : Nat → Nat) (v : Int) (e : Evaluation φ ε) :
    (e.fill v).renumber σ = (e.renumber σ).fill v := by
  obtain ⟨status, calls, c⟩ := e
  cases status <;> rfl

section pure

variable {h : Host φ ε} {s : Symbols φ}

theorem alike_initial (env env' : ε) (calls calls' : List (Call φ)) :
    Evaluation.Alike h s ⟨.reading {}, calls, s, env⟩ ⟨.reading {}, calls', s, env'⟩ := by
  have hruns : ({} : State φ).Runs (Routine.Pure h s) := List.forall_mem_nil _
  exact Evaluation.alike_reading hruns rfl rfl

/-- A formula has its value also where it does not begin the text. -/
theorem finish_tokens (hs : s.Pure h) {w : List Char} {env' : ε} {v : Int}
    (hw : (evaluate h w ⟨s, env'⟩).1 = .value v) (k : Nat) (env : ε) (calls : List (Call φ)) :
    ((tokens k w).foldl (Evaluation.advance h) ⟨.reading {}, calls, s, env⟩).finish
      (w.length + k) = .value v := by
  have halike := (alike_initial env env' calls []).foldl hs (tokens k w)
  have htokens : tokens k w = (tokens 0 w).map (Lexeme.renumber (· + k)) := by
    rw [← tokens_add, Nat.zero_add]
  have hmoved := Evaluation.foldl_renumber h (tokens 0 w) ⟨.reading {}, [], s, env'⟩ (σ := (· + k))
  have hfinish := Evaluation.finish_renumber (σ := (· + k)) w.length (evaluation h w ⟨s, env'⟩)
  have hvalue : (evaluation h w ⟨s, env'⟩).finish w.length = .value v := hw
  rw [hvalue] at hfinish
  rw [halike.finish_eq, htokens]
  exact (congrArg (·.finish (w.length + k)) hmoved).trans hfinish

/-- A text with a formula in parentheses that has a value ends like the text with this value,
apart from the positions behind the formula. -/
theorem evaluate_enclosed (hs : s.Pure h) (env env' : ε) {a w b : List Char} {v : Int}
    (hw : (evaluate h w ⟨s, env'⟩).1 = .value v) :
    (evaluate h (a ++ '(' :: (w ++ ')' :: b)) ⟨s, env⟩).1 =
      (filled h a b v ⟨s, env⟩).renumber (past a.length w.length) := by
  let n := a.length
  let x : Lexeme := ⟨.closing, n + 1 + w.length⟩
  let rest := tokens (n + 1 + w.length + 1) b
  let stop := (a ++ '(' :: (w ++ ')' :: b)).length
  have hstop : stop = past n w.length (n + 2 + b.length) := by
    rw [past_of_lt (by omega)]
    simp only [stop, n, List.length_append, List.length_cons]
    omega
  have hsplit : evaluation h (a ++ '(' :: (w ++ ')' :: b)) ⟨s, env⟩ =
      rest.foldl (Evaluation.advance h)
        ((tokens (n + 1) w ++ [x]).foldl (Evaluation.advance h) (opened h a ⟨s, env⟩)) := by
    rw [evaluation, tokens_enclosed, opened, ← List.foldl_append, ← List.foldl_append]
    simp only [List.append_assoc, List.cons_append, List.nil_append]
    rfl
  have hopened := opened_renumber h a ⟨s, env⟩ w.length
  change (evaluation h (a ++ '(' :: (w ++ ')' :: b)) ⟨s, env⟩).finish stop = _
  rw [hsplit]
  rcases opened_cases h a ⟨s, env⟩ with ⟨r, hr⟩ | ⟨q, es, hq, hreading⟩
  · -- The text in front has ended the evaluation, and nothing from the parenthesis on is read.
    rw [Evaluation.foldl_of_ended h hr, Evaluation.foldl_of_ended h hr]
    have hfill : (opened h a ⟨s, env⟩).fill v = opened h a ⟨s, env⟩ := by
      simp only [Evaluation.fill, hr]
    have hfixed := congrArg Evaluation.status hopened
    simp only [Evaluation.renumber, hr, Status.renumber] at hfixed
    rw [filled, hfill, Evaluation.foldl_of_ended h hr]
    simp only [Evaluation.finish, hr]
    exact (Status.ended.inj hfixed).symm
  · -- The group may have changed the state of the host, but nothing that the rest depends on.
    have hself : Evaluation.Alike h s (opened h a ⟨s, env⟩) (opened h a ⟨s, env⟩) :=
      (alike_initial env env [] []).foldl hs _
    have hmoved := Evaluation.foldl_renumber h (Lexeme.mk .closing (n + 1) :: tokens (n + 2) b)
      ((opened h a ⟨s, env⟩).fill v) (σ := past n w.length)
    rw [renumber_behind, Evaluation.fill_renumber, hopened] at hmoved
    rw [filled, hstop, ← Evaluation.finish_renumber, ← hmoved]
    generalize opened h a ⟨s, env⟩ = o at hself hreading ⊢
    obtain ⟨status, calls, s', env₁⟩ := o
    obtain rfl : s' = s := hself.left
    obtain rfl : status = .reading ⟨q, {}, es⟩ := hreading
    have hvalue := finish_tokens hs hw (n + 1) env₁ calls
    have htop := ((alike_initial env₁ env₁ calls calls).foldl hs (tokens (n + 1) w)).left
    rw [Evaluation.foldl_append_end h rfl hvalue (.inl rfl) hq]
    have hruns : (⟨.product v, {}, es⟩ : State φ).Runs (Routine.Pure h s') :=
      hself.runs ⟨q, {}, es⟩ rfl
    exact ((Evaluation.alike_reading hruns htop rfl).foldl hs (x :: rest)).finish_eq _

/-- How a text ends with a value in parentheses does not depend on the state of the host. -/
theorem filled_eq (hs : s.Pure h) (env env' : ε) (a b : List Char) (v : Int) :
    filled h a b v ⟨s, env⟩ = filled h a b v ⟨s, env'⟩ := by
  have hopened : Evaluation.Alike h s (opened h a ⟨s, env⟩) (opened h a ⟨s, env'⟩) :=
    (alike_initial env env' [] []).foldl hs _
  have hfill : Evaluation.Alike h s ((opened h a ⟨s, env⟩).fill v)
      ((opened h a ⟨s, env'⟩).fill v) := by
    generalize opened h a ⟨s, env⟩ = e at hopened ⊢
    generalize opened h a ⟨s, env'⟩ = e' at hopened ⊢
    obtain ⟨status, calls, c⟩ := e
    obtain ⟨status', calls', c'⟩ := e'
    obtain ⟨rfl, hleft, hright, hruns⟩ := hopened
    cases status with
    | ended r => exact ⟨rfl, hleft, hright, hruns⟩
    | reading st =>
      have hst : (⟨.product v, {}, st.enclosures⟩ : State φ).Runs (Routine.Pure h s) :=
        hruns st rfl
      exact Evaluation.alike_reading hst hleft hright
  exact (hfill.foldl hs _).finish_eq _

theorem evaluate_identifier (x : Identifier) {v : Int} (hv : s.value? x.name = some v) (env : ε) :
    (evaluate h x.name.toList ⟨s, env⟩).1 = .value v := by
  have hread : State.read s ⟨.word x.name.toList, 0⟩ {} = .next { phase := .primary v } :=
    State.readWord_variable hv 0 {}
  have hevaluation : evaluation h x.name.toList ⟨s, env⟩ =
      ⟨.reading { phase := .primary v }, [], s, env⟩ := by
    rw [evaluation, tokens_identifier]
    simp only [List.foldl_cons, List.foldl_nil, Evaluation.advance, hread]
  rw [evaluate, hevaluation]
  exact congrArg Ending.value (Int.zero_add v)

end pure

/-- Where two outcomes agree, apart from positions: those up to `a` are the same, and those that
lie behind the `e` characters from `a + 1` on are as far behind the `x` characters there. -/
inductive Replaced (a e x : Nat) : Except Fault Outcome → Except Fault Outcome → Prop
  | value (n : Int) : Replaced a e x (.ok ⟨.value n, none⟩) (.ok ⟨.value n, none⟩)
  | fault (f : Fault) : Replaced a e x (.error f) (.error f)
  | before (k : ErrorKind) (p : Nat) (hp : p ≤ a) :
      Replaced a e x (.ok ⟨.failure k, some p⟩) (.ok ⟨.failure k, some p⟩)
  | behind (k : ErrorKind) (p p' : Nat) (hp : a + 1 + e ≤ p) (hp' : p' + e = p + x) :
      Replaced a e x (.ok ⟨.failure k, some p⟩) (.ok ⟨.failure k, some p'⟩)

theorem replaced_renumber (r : Ending) (a e x : Nat) :
    Replaced a e x (r.renumber (past a e)).toOutcome (r.renumber (past a x)).toOutcome := by
  cases r with
  | value n => exact .value n
  | fault f => exact .fault f
  | failure f =>
    obtain ⟨k, p⟩ := f
    simp only [Ending.renumber, Failure.renumber, Ending.toOutcome]
    by_cases hp : p ≤ a
    · rw [past_of_le hp, past_of_le hp]
      exact .before k p hp
    · have hlt : a < p := Nat.lt_of_not_le hp
      rw [past_of_lt hlt, past_of_lt hlt]
      exact .behind k (p + e) (p + x) (by omega) (by omega)

/-- In every text, well formed or not, a formula in parentheses that has a value can be replaced by
a variable that has this value, where the functions that are bound are pure. -/
theorem eval_replace (h : Host φ ε) (s : Symbols φ) (hs : s.Pure h) (env env₁ env₂ : ε)
    (a b e x : String) (v : Int) (p : Option Int)
    (he : ((Calculator.mk s env).eval h (.text e)).1 = .ok ⟨.value v, p⟩) (hx : isName x)
    (hv : s.value? x = some v) :
    Replaced a.length e.length x.length
      ((Calculator.mk s env₁).eval h (.text (a ++ "(" ++ e ++ ")" ++ b))).1
      ((Calculator.mk s env₂).eval h (.text (a ++ "(" ++ x ++ ")" ++ b))).1 := by
  have htext : ∀ w : String, (a ++ "(" ++ w ++ ")" ++ b).toList =
      a.toList ++ '(' :: (w.toList ++ ')' :: b.toList) := by
    intro w
    simp
  have heval : ∀ (w : String) (env' env₀ : ε), (evaluate h w.toList ⟨s, env₀⟩).1 = .value v →
      ((Calculator.mk s env').eval h (.text (a ++ "(" ++ w ++ ")" ++ b))).1 =
        ((filled h a.toList b.toList v ⟨s, env₁⟩).renumber
          (past a.length w.length)).toOutcome := by
    intro w env' env₀ hw
    change (evaluate h _ _).1.toOutcome = _
    rw [htext, evaluate_enclosed hs env' env₀ hw, filled_eq hs env' env₁, String.length_toList,
      String.length_toList]
  rw [heval e env₁ env (Ending.eq_value_of_toOutcome he),
    heval x env₂ env (evaluate_identifier ⟨x, hx⟩ hv env)]
  exact replaced_renumber _ _ _ _

def squaring : Host Unit Unit where
  invoke _ args c := (.ok (.int (args.headD 0 * args.headD 0)), c)

def squares : Symbols Unit :=
  (({} : Symbols Unit).putVariable "x" 3).putFunction "sq"
    (Callable.routine { handle := (), shown := "sq" } 1)

/-- The argument of a call is replaced; the division behind it fails in both texts. -/
theorem eval_replace_argument :
    squares.Pure squaring ∧
      ((Calculator.mk squares ()).eval squaring (.text "1 + 2")).1 = .ok ⟨.value 3, none⟩ ∧
      Replaced "2 * sq".length "1 + 2".length "x".length
        ((Calculator.mk squares ()).eval squaring
          (.text ("2 * sq" ++ "(" ++ "1 + 2" ++ ")" ++ " / 0"))).1
        ((Calculator.mk squares ()).eval squaring
          (.text ("2 * sq" ++ "(" ++ "x" ++ ")" ++ " / 0"))).1 := by
  have hpure : squares.Pure squaring := fun x f n hf args => ⟨_, fun env => ⟨rfl, rfl⟩⟩
  have hvalue : ((Calculator.mk squares ()).eval squaring (.text "1 + 2")).1 =
      .ok ⟨.value 3, none⟩ := rfl
  exact ⟨hpure, hvalue, eval_replace squaring squares hpure () () () "2 * sq" " / 0" "1 + 2" "x" 3
    none hvalue rfl rfl⟩

end Abacus.Formula
