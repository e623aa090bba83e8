import Mathlib.Computability.Language
import Abacus.Proofs.Evaluation.Blanks
import Abacus.Proofs.Evaluation.Lookups
import Abacus.Proofs.Evaluation.Variables
import Abacus.Proofs.History.Operations
import Abacus.Text.Cursor

/-!
# Names that can be bound and names that are read

A name can be bound if and only if it is matched by the pattern of names, and if and only if a
cursor at its beginning reads it as one name. What is bound to such a name is what a formula finds
there: a variable stands for its value, and a function is called with the arguments behind it.
No other name is ever looked up (`names_agree`).
-/
namespace Abacus

open scoped Computability

def charIn (ranges : List (Char × Char)) : Language Char :=
  {w | ∃ ch, (∃ r ∈ ranges, r.1 ≤ ch ∧ ch ≤ r.2) ∧ w = [ch]}

/-- The pattern `[a-zA-Z][a-zA-Z0-9]*`, up to the end of the text. -/
def namePattern : Language Char :=
  charIn [('a', 'z'), ('A', 'Z')] * (charIn [('a', 'z'), ('A', 'Z'), ('0', '9')])∗

theorem mem_charIn_kstar {ranges : List (Char × Char)} {w : List Char} :
    w ∈ (charIn ranges)∗ ↔ ∀ ch ∈ w, ∃ r ∈ ranges, r.1 ≤ ch ∧ ch ≤ r.2 := by
  rw [Language.mem_kstar]
  constructor
  · rintro ⟨ws, rfl, hws⟩ ch hch
    obtain ⟨w, hw, hmem⟩ := List.mem_flatten.mp hch
    obtain ⟨ch', hrange, rfl⟩ := hws w hw
    obtain rfl := List.mem_singleton.mp hmem
    exact hrange
  · intro hw
    refine ⟨w.map fun ch => [ch], ?_, ?_⟩
    · induction w with
      | nil => rfl
      | cons ch w ih =>
        rw [List.map_cons, List.flatten_cons, ← ih fun d hd => hw d (List.mem_cons_of_mem ch hd)]
        rfl
    · intro v hv
      obtain ⟨ch, hch, rfl⟩ := List.mem_map.mp hv
      exact ⟨ch, hw ch hch, rfl⟩

theorem isAlpha_iff (ch : Char) :
    ch.isAlpha ↔ ∃ r ∈ [('a', 'z'), ('A', 'Z')], r.1 ≤ ch ∧ ch ≤ r.2 := by
  have hupper : ch.isUpper ↔ 'A' ≤ ch ∧ ch ≤ 'Z' := decide_eq_true_iff
  have hlower : ch.isLower ↔ 'a' ≤ ch ∧ ch ≤ 'z' :=
    Bool.and_eq_true_iff.trans (and_congr decide_eq_true_iff decide_eq_true_iff)
  have halpha : ch.isAlpha ↔ ch.isUpper ∨ ch.isLower := Bool.or_eq_true_iff
  rw [halpha, hupper, hlower]
  simp [or_comm]

theorem isAlphanum_iff (ch : Char) :
    ch.isAlphanum ↔ ∃ r ∈ [('a', 'z'), ('A', 'Z'), ('0', '9')], r.1 ≤ ch ∧ ch ≤ r.2 := by
  simp only [Char.isAlphanum, Bool.or_eq_true, isAlpha_iff, Char.isDigit, Bool.and_eq_true,
    decide_eq_true_eq, List.exists_mem_cons_iff, Char.le_def, ge_iff_le]
  simp [or_assoc]

theorem isName_iff {s : String} :
    isName s ↔ ∃ ch cs, s.toList = ch :: cs ∧ ch.isAlpha ∧ ∀ d ∈ cs, d.isAlphanum := by
  constructor
  · intro hs
    exact Formula.Identifier.exists_cons ⟨s, hs⟩
  · rintro ⟨ch, cs, hs, hch, hcs⟩
    unfold isName
    rw [hs]
    exact Bool.and_eq_true_iff.mpr ⟨hch, List.all_eq_true.mpr hcs⟩

theorem isName_iff_mem_namePattern {s : String} : isName s ↔ s.toList ∈ namePattern := by
  rw [isName_iff, namePattern, Language.mem_mul]
  constructor
  · rintro ⟨ch, cs, hs, hch, hcs⟩
    refine ⟨[ch], ⟨ch, (isAlpha_iff ch).mp hch, rfl⟩, cs, mem_charIn_kstar.mpr ?_, hs.symm⟩
    intro d hd
    exact (isAlphanum_iff d).mp (hcs d hd)
  · rintro ⟨_, ⟨ch, hch, rfl⟩, cs, hcs, hs⟩
    refine ⟨ch, cs, hs.symm, (isAlpha_iff ch).mpr hch, ?_⟩
    intro d hd
    exact (isAlphanum_iff d).mpr (mem_charIn_kstar.mp hcs d hd)

/-- A cursor reads a name: it shows a letter, and the letters and digits reach to the end. -/
theorem isName_iff_cursor {s : String} :
    isName s ↔ (∃ ch, (Cursor.mk s.toList 0).peek = some ch ∧ ch.isAlpha) ∧
      ((Cursor.mk s.toList 0).takeWhile Char.isAlphanum).2.atEnd := by
  have hatEnd : ((Cursor.mk s.toList 0).takeWhile Char.isAlphanum).2.atEnd ↔
      ∀ d ∈ s.toList, d.isAlphanum := by
    rw [← List.takeWhile_eq_self_iff]
    simp only [Cursor.takeWhile, Cursor.advance, Cursor.rest, Cursor.atEnd, List.drop_zero,
      decide_eq_true_eq, Nat.zero_add]
    constructor
    · exact fun hle => (List.takeWhile_prefix _).eq_of_length_le hle
    · exact fun heq => (congrArg List.length heq).ge
  rw [hatEnd, isName_iff]
  constructor
  · rintro ⟨ch, cs, hs, hch, hcs⟩
    rw [hs]
    refine ⟨⟨ch, rfl, hch⟩, List.forall_mem_cons.mpr ⟨?_, hcs⟩⟩
    simp [Char.isAlphanum, hch]
  · rintro ⟨⟨ch, hpeek, hch⟩, hall⟩
    obtain ⟨cs, hs⟩ := List.head?_eq_some_iff.mp hpeek
    have hs : s.toList = ch :: cs := hs
    rw [hs] at hall
    exact ⟨ch, cs, hs, hch, (List.forall_mem_cons.mp hall).2⟩

namespace Formula

variable {φ ε : Type}

theorem tokens_blanks {w : List Char} (hw : ∀ ch ∈ w, isBlank ch) (i : Nat) : tokens i w = [] := by
  have h := tokens_blanks_append hw i []
  rwa [List.append_nil] at h

theorem State.read_literal {symbols : Symbols φ} {s : State φ} (hs : s.Awaits) {l : Literal}
    (hl : ¬ l.TooLong) (pos : Nat) :
    s.read symbols ⟨.word l.spelling, pos⟩ = .next { s with phase := .primary l.value } := by
  rw [hs.read_word, readWord_literal, if_neg hl]

theorem eval_variable (h : Host φ ε) {c : Calculator φ ε} {x : Identifier} {v : Int}
    (hv : c.symbols.value? x.name = some v) {w w' : String} (hw : ∀ ch ∈ w.toList, isBlank ch)
    (hw' : ∀ ch ∈ w'.toList, isBlank ch) :
    c.eval h (.text (w ++ x.name ++ w')) = (.ok ⟨.value v, none⟩, c) := by
  have htokens : tokens 0 (w ++ x.name ++ w').toList =
      [⟨.word x.name.toList, w.toList.length⟩] := by
    have hblanks := tokens_blanks hw' (w.toList.length + x.name.toList.length)
    rw [String.toList_append, String.toList_append, List.append_assoc, tokens_blanks_append hw,
      Nat.zero_add, tokens_word_append x.toList_ne_nil x.isAlphanum_of_mem ?_, hblanks]
    intro u ys hu
    rw [hblanks] at hu
    cases hu
  have hread : State.read c.symbols ⟨.word x.name.toList, w.toList.length⟩ {} =
      .next { phase := .primary v } := State.readWord_variable hv _ {}
  have hevaluation : evaluation h (w ++ x.name ++ w').toList c =
      ⟨.reading { phase := .primary v }, [], c⟩ := by
    rw [evaluation, htokens, List.foldl_cons, List.foldl_nil]
    simp only [Evaluation.advance, hread]
  simp only [Calculator.eval, evaluate, hevaluation]
  change (Ending.toOutcome (.value (({} : RunningSum).add v)), c) = _
  rw [RunningSum.initial_add]
  rfl

def literalList (ls : List Literal) : List Char := [','].intercalate (ls.map Literal.spelling)

theorem tokens_literalList (i : Nat) (l l' : Literal) (ls : List Literal) :
    tokens i (literalList (l :: l' :: ls)) =
      ⟨.word l.spelling, i⟩ :: ⟨.comma, i + l.spelling.length⟩ ::
        tokens (i + l.spelling.length + 1) (literalList (l' :: ls)) := by
  have hlist : literalList (l :: l' :: ls) = l.spelling ++ ',' :: literalList (l' :: ls) := by
    rw [literalList, List.map_cons, List.map_cons, List.intercalate_cons_cons, List.append_assoc]
    rfl
  rw [hlist, tokens_append_mark (by decide) (by decide), tokens_literal]
  rfl

theorem Evaluation.advance_of_next (h : Host φ ε) {s s' : State φ} (calls : List (Call φ))
    {c : Calculator φ ε} {x : Lexeme} (hread : s.read c.symbols x = .next s') :
    (⟨.reading s, calls, c⟩ : Evaluation φ ε).advance h x = ⟨.reading s', calls, c⟩ := by
  simp only [advance, hread]

section arguments

variable (h : Host φ ε) (f : Routine φ) (p q : Nat) (c : Calculator φ ε)

/-- The evaluation of a call that is the whole text, where the arguments `vs` are complete. -/
def inside (phase : Phase) (vs : List Int) : Evaluation φ ε :=
  ⟨.reading ⟨phase, {}, [.call f p vs {}]⟩, [], c⟩

theorem advance_literal {l : Literal} (hl : ¬ l.TooLong) (i : Nat) {phase : Phase}
    (hphase : phase = .operand ∨ phase = .arguments) (vs : List Int) :
    (inside f p c phase vs).advance h ⟨.word l.spelling, i⟩ =
      inside f p c (.primary l.value) vs := by
  have hs : State.Awaits ⟨phase, {}, [.call f p vs {}]⟩ := hphase
  exact Evaluation.advance_of_next h [] (State.read_literal hs hl i)

theorem advance_comma (v : Int) (i : Nat) (vs : List Int) :
    (inside f p c (.primary v) vs).advance h ⟨.comma, i⟩ =
      inside f p c .operand (vs ++ [v]) := by
  refine Evaluation.advance_of_next h [] ?_
  change Step.next ⟨.operand, {}, [.call f p (vs ++ [({} : RunningSum).add v]) {}]⟩ = _
  rw [RunningSum.initial_add]

/-- The last argument may be taken before or with the parenthesis that closes the list. -/
theorem advance_closing (v : Int) (vs : List Int) :
    (inside f p c (.primary v) vs).advance h ⟨.closing, q⟩ =
      (inside f p c .arguments (vs ++ [v])).advance h ⟨.closing, q⟩ := by
  have hread : State.read c.symbols ⟨.closing, q⟩ ⟨.primary v, {}, [.call f p vs {}]⟩ =
      State.read c.symbols ⟨.closing, q⟩ ⟨.arguments, {}, [.call f p (vs ++ [v]) {}]⟩ := by
    change State.close ⟨f, vs ++ [({} : RunningSum).add v], p, q⟩ {} [] = _
    rw [RunningSum.initial_add]
    rfl
  simp only [inside, Evaluation.advance, hread]

/-- Literals up to the parenthesis that closes the list become the arguments. -/
theorem foldl_literalList_cons (l : Literal) (ls : List Literal)
    (hls : ∀ k ∈ l :: ls, ¬ k.TooLong) (i : Nat) {phase : Phase}
    (hphase : phase = .operand ∨ phase = .arguments) (vs : List Int) :
    (tokens i (literalList (l :: ls)) ++ [Lexeme.mk .closing q]).foldl (Evaluation.advance h)
        (inside f p c phase vs) =
      (inside f p c .arguments (vs ++ (l :: ls).map fun k => (k.value : Int))).advance h
        ⟨.closing, q⟩ := by
  induction ls generalizing l i phase vs with
  | nil =>
    obtain ⟨hl, -⟩ := List.forall_mem_cons.mp hls
    have hlist : literalList [l] = l.spelling := List.intercalate_singleton
    rw [hlist, tokens_literal, List.singleton_append, List.foldl_cons, List.foldl_cons,
      List.foldl_nil, advance_literal h f p c hl i hphase, advance_closing]
    rfl
  | cons l' ls ih =>
    obtain ⟨hl, hls⟩ := List.forall_mem_cons.mp hls
    rw [tokens_literalList, List.cons_append, List.cons_append, List.foldl_cons, List.foldl_cons,
      advance_literal h f p c hl i hphase, advance_comma, ih l' hls _ (.inl rfl),
      List.append_assoc]
    rfl

theorem foldl_literalList {ls : List Literal} (hls : ∀ l ∈ ls, ¬ l.TooLong) (i : Nat) :
    (tokens i (literalList ls) ++ [Lexeme.mk .closing q]).foldl (Evaluation.advance h)
        (inside f p c .arguments []) =
      (inside f p c .arguments (ls.map fun l => (l.value : Int))).advance h ⟨.closing, q⟩ := by
  cases ls with
  | nil => rfl
  | cons l ls => exact foldl_literalList_cons h f p q c l ls hls i (.inr rfl) []

end arguments

def callText (name : String) (ls : List Literal) : String :=
  name ++ "(" ++ ",".intercalate (ls.map fun l => String.ofList l.spelling) ++ ")"

theorem toList_callText (name : String) (ls : List Literal) :
    (callText name ls).toList = name.toList ++ '(' :: (literalList ls ++ [')']) := by
  simp [callText, literalList, String.toList_intercalate, Function.comp_def]

/-- A function that is called with literals, as many as it takes, is called once, with the numbers
that they denote. -/
theorem evaluation_callText (h : Host φ ε) {c : Calculator φ ε} {x : Identifier} {f : Routine φ}
    (hvalue : c.symbols.value? x.name = none) (hroutine : c.symbols.routine? x.name = some f)
    {ls : List Literal} (harity : ls.length = f.arity) (hls : ∀ l ∈ ls, ¬ l.TooLong) :
    let y : Call φ := ⟨f, ls.map fun l => (l.value : Int), 0, (callText x.name ls).length - 1⟩
    evaluation h (callText x.name ls).toList c =
      ⟨State.resume {} (y.run h c).1, [y], (y.run h c).2⟩ := by
  intro y
  let i := x.name.toList.length
  have hclosing : (callText x.name ls).length - 1 = i + 1 + (literalList ls).length := by
    rw [← String.length_toList, toList_callText, List.length_append, List.length_cons,
      List.length_append, List.length_singleton]
    omega
  have htokens : tokens 0 (callText x.name ls).toList =
      ⟨.word x.name.toList, 0⟩ :: ⟨.opening, i⟩ :: (tokens (i + 1) (literalList ls) ++
        [⟨.closing, (callText x.name ls).length - 1⟩]) := by
    rw [toList_callText, tokens_append_mark (by decide) (by decide), tokens_identifier,
      tokens_append_mark (by decide) (by decide), hclosing, Nat.zero_add]
    rfl
  have hname : State.read c.symbols ⟨.word x.name.toList, 0⟩ {} =
      .next { phase := .name x.name 0 } := State.readWord_name hvalue 0 {}
  have hopening : State.read c.symbols ⟨.opening, i⟩ { phase := .name x.name 0 } =
      .next ⟨.arguments, {}, [.call f 0 [] {}]⟩ := by
    simp only [State.read, hroutine]
  have hcall : State.read c.symbols ⟨.closing, (callText x.name ls).length - 1⟩
      ⟨.arguments, {}, [.call f 0 y.args {}]⟩ = .call y {} := by
    refine if_pos ?_
    rw [List.length_map]
    exact harity
  have hinside := foldl_literalList h f 0 ((callText x.name ls).length - 1) c hls (i + 1)
  rw [evaluation, htokens, List.foldl_cons, Evaluation.advance_of_next h [] hname, List.foldl_cons,
    Evaluation.advance_of_next h [] hopening]
  refine hinside.trans ?_
  simp only [inside, Evaluation.advance, hcall, y]

theorem toOutcome_resume (r : Except Fault Int) (calls : List (Call φ)) (c : Calculator φ ε)
    (n : Nat) :
    ((⟨State.resume {} r, calls, c⟩ : Evaluation φ ε).finish n).toOutcome =
      r.map fun v => ⟨.value v, none⟩ := by
  cases r with
  | error e => rfl
  | ok v =>
    change (Ending.value (({} : RunningSum).add v)).toOutcome = _
    rw [RunningSum.initial_add]
    rfl

theorem eval_callText (h : Host φ ε) {c : Calculator φ ε} {x : Identifier} {f : Routine φ}
    (hvalue : c.symbols.value? x.name = none) (hroutine : c.symbols.routine? x.name = some f)
    {ls : List Literal} (harity : ls.length = f.arity) (hls : ∀ l ∈ ls, ¬ l.TooLong) :
    let r := f.code.run h (ls.map fun l => (l.value : Int)) c
    c.eval h (.text (callText x.name ls)) = (r.1.map fun v => ⟨.value v, none⟩, r.2) := by
  intro r
  have hlength : (ls.map fun l => (l.value : Int)).length = f.arity := by
    rw [List.length_map]
    exact harity
  have hevaluation := evaluation_callText h hvalue hroutine harity hls
  simp only [Call.run_eq_code_run h (Call.mk f _ _ _) hlength] at hevaluation
  simp only [Calculator.eval, evaluate, hevaluation, toOutcome_resume]
  rfl

end Formula

open Formula

section binding

variable {φ ε : Type}

theorem Calculator.set_text (c : Calculator φ ε) {s : String} (hs : isName s) (v : Int) :
    c.set (.text s) (.int v) =
      (.ok (c.symbols.value? s), { c with symbols := c.symbols.putVariable s v }) := by
  rw [set, c.symbols.setVariable_text hs]
  rfl

theorem Calculator.of_bindFunction {c c' : Calculator φ ε} {s : String} {offer : Offer φ}
    {arity : Option Int} (h : c.bindFunction (.text s) offer arity = (.ok (), c')) :
    ∃ f, isName s ∧ offer.resolve arity = .ok f ∧
      c' = { c with symbols := c.symbols.putFunction s f } := by
  rcases c.symbols.setFunction_cases (.text s) offer arity with
    ⟨e, he⟩ | ⟨x, f, hx, hname, hf, -, -, hok⟩
  · rw [bindFunction, he] at h
    cases h
  · obtain rfl := Datum.text.inj hname
    rw [bindFunction, hok] at h
    exact ⟨f, hx, hf, (congrArg Prod.snd h).symm⟩

/-- The names that can be bound are those of the pattern, and those that a cursor reads as one name
from their beginning to their end. A variable that is bound stands for its value, with any blanks
around it, and a function that is bound is called once, with exactly the numbers that the literals
behind it denote. Behind any tokens of any text, the evaluation looks up proper names only, and
nothing else of the symbols matters. -/
theorem names_agree (h : Host φ ε) (c : Calculator φ ε) (s : String) :
    (checkName (.text s) = .ok s ↔ s.toList ∈ namePattern) ∧
    (checkName (.text s) = .ok s ↔
      (∃ ch, (Cursor.mk s.toList 0).peek = some ch ∧ ch.isAlpha) ∧
        ((Cursor.mk s.toList 0).takeWhile Char.isAlphanum).2.atEnd) ∧
    (checkName (.text s) ≠ .ok s →
      checkName (.text s) = .error (.binding (.invalidName (quoted s)))) ∧
    (checkName (.text s) = .ok s → ∀ v : Int,
      ∃ c', c.set (.text s) (.int v) = (.ok (c.symbols.value? s), c') ∧
        ∀ w w' : String, (∀ ch ∈ w.toList, isBlank ch) → (∀ ch ∈ w'.toList, isBlank ch) →
          c'.eval h (.text (w ++ s ++ w')) = (.ok ⟨.value v, none⟩, c')) ∧
    (∀ offer arity c', c.bindFunction (.text s) offer arity = (.ok (), c') →
      ∃ f, offer.resolve arity = .ok f ∧
        ∀ ls : List Literal, ls.length = f.arity → (∀ l ∈ ls, ¬ l.TooLong) →
          let args := ls.map fun l => (l.value : Int)
          let r := f.code.run h args c'
          (evaluation h (callText s ls).toList c').calls =
              [⟨f, args, 0, (callText s ls).length - 1⟩] ∧
            c'.eval h (.text (callText s ls)) = (r.1.map fun v => ⟨.value v, none⟩, r.2)) ∧
    ∀ (text : List Char) (before behind : List Lexeme) (state : State φ) (c₁ : Calculator φ ε),
      tokens 0 text = before ++ behind → Stands h c before state c₁ →
        (∀ n ∈ state.lookups behind.head?, checkName (.text n) = .ok n) ∧
          ∀ symbols : Symbols φ, (∀ n ∈ state.lookups behind.head?,
            symbols.value? n = c₁.symbols.value? n ∧
              symbols.routine? n = c₁.symbols.routine? n) →
            state.answer symbols text.length behind.head? =
              state.answer c₁.symbols text.length behind.head? := by
  refine ⟨?_, ?_, ?_, ?_, ?_, ?_⟩
  · rw [checkName_text_iff]
    exact isName_iff_mem_namePattern
  · rw [checkName_text_iff]
    exact isName_iff_cursor
  · intro hs
    rw [Ne, checkName_text_iff] at hs
    exact if_neg hs
  · intro hs v
    have hs : isName s := checkName_text_iff.mp hs
    refine ⟨_, c.set_text hs v, fun w w' hw hw' => ?_⟩
    have hvalue : (c.symbols.putVariable s v).value? s = some v := by
      rw [Symbols.value?_putVariable, if_pos rfl]
    exact eval_variable h (x := ⟨s, hs⟩) hvalue hw hw'
  · intro offer arity c' hc'
    obtain ⟨f, hs, hf, rfl⟩ := Calculator.of_bindFunction hc'
    refine ⟨f, hf, fun ls harity hls => ?_⟩
    have hvalue : (c.symbols.putFunction s f).value? s = none := by
      rw [Symbols.value?_putFunction, if_pos rfl]
    have hroutine : (c.symbols.putFunction s f).routine? s = some f := by
      rw [Symbols.routine?_putFunction, if_pos rfl]
    refine ⟨?_, eval_callText h (x := ⟨s, hs⟩) hvalue hroutine harity hls⟩
    exact congrArg Evaluation.calls
      (evaluation_callText h (x := ⟨s, hs⟩) hvalue hroutine harity hls)
  · intro text before behind state c₁ htokens hstands
    refine ⟨fun n hn => ?_, fun symbols hsymbols => ?_⟩
    · exact checkName_text_iff.mpr (hstands.isName_of_mem_lookups htokens hn)
    · exact State.answer_congr text.length state behind.head? hsymbols

end binding

end Abacus
