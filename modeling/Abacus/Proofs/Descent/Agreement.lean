import Abacus.Proofs.Descent.Following

/-!
# A descent and the fold over the tokens agree

While a rule is at work the evaluation by tokens can be kept in step with it: it stands where the
rule is entered, it stands where the rule returns, and in between nothing is lost of what it comes
to (`Rule.Tracks`). A rule that fails has found what the evaluation comes to. By descent a text is
therefore evaluated to the same end, with the same calls and the same calculator
(`evaluation_of_formula`).
-/
namespace Abacus.Formula

variable {φ ε : Type}

namespace Rule

open Descent

section contract

variable (h : Host φ ε) (es : List (Enclosure φ)) (r : RunningSum)

def BehindSum (v : Int) (d : Desk φ ε) (e : Evaluation φ ε) : Prop :=
  d.pending = none ∧ d.cursor.Clear ['+', '-'] ∧ d.cursor.Clear ['*', '/', '%'] ∧
    e = d.reading ⟨.product v, {}, es⟩

def BehindProduct (total : Int) (subtract : Bool) (v : Int) (d : Desk φ ε)
    (e : Evaluation φ ε) : Prop :=
  d.pending = none ∧ d.cursor.Clear ['*', '/', '%'] ∧
    e = d.reading ⟨.product v, { total, subtract }, es⟩

def BehindOperand (v : Int) (d : Desk φ ε) (e : Evaluation φ ε) : Prop :=
  d.pending = none ∧ e = d.evaluation ((⟨.operand, r, es⟩ : State φ).resume (.ok v))

def BehindArguments (f : Routine φ) (pos : Nat) (args : List Int) (d : Desk φ ε)
    (e : Evaluation φ ε) : Prop :=
  d.pending = none ∧ e = d.taking h (State.close ⟨f, args, pos, d.cursor.pos - 1⟩ r es)

def BehindPrimary (v : Int) (d : Desk φ ε) (e : Evaluation φ ε) : Prop :=
  (d.pending = none ∧ e = d.reading ⟨.primary v, r, es⟩) ∨
    ∃ x pos, d.pending = some (x, pos) ∧ e = d.reading ⟨.name x pos, r, es⟩

/-- The evaluation that stands where a rule is entered, and those where it may return. -/
inductive Contract (d : Desk φ ε) : ∀ {β : Type}, Rule β → Evaluation φ ε →
    (β → Desk φ ε → Evaluation φ ε → Prop) → Prop
  | sum (es : List (Enclosure φ)) :
      Contract d sum (d.reading ⟨.operand, {}, es⟩) (BehindSum es)
  | sumFrom (es : List (Enclosure φ)) (v : Int) (hc : d.cursor.Clear ['*', '/', '%']) :
      Contract d (sumFrom v) (d.reading ⟨.product v, {}, es⟩) (BehindSum es)
  | product (es : List (Enclosure φ)) (total : Int) (subtract : Bool) :
      Contract d product (d.reading ⟨.operand, { total, subtract }, es⟩)
        (BehindProduct es total subtract)
  | productFrom (es : List (Enclosure φ)) (total : Int) (subtract : Bool) (v : Int) :
      Contract d (productFrom v) (d.reading ⟨.product v, { total, subtract }, es⟩)
        (BehindProduct es total subtract)
  | signed (es : List (Enclosure φ)) (r : RunningSum) (negate : Bool) :
      Contract d (signed negate) (d.reading ⟨.operand, { r with negate }, es⟩)
        (BehindOperand es { r with negate := false })
  | operand (es : List (Enclosure φ)) (r : RunningSum) (hc : d.cursor.Clear ['+', '-']) :
      Contract d operand (d.reading ⟨.operand, r, es⟩) (BehindOperand es r)
  | arguments (es : List (Enclosure φ)) (r : RunningSum) (f : Routine φ) (pos : Nat) :
      Contract d arguments (d.reading ⟨.arguments, {}, .call f pos [] r :: es⟩)
        (BehindArguments h es r f pos)
  | argumentsFrom (es : List (Enclosure φ)) (r : RunningSum) (f : Routine φ) (pos : Nat)
      (args : List Int) :
      Contract d (argumentsFrom args) (d.reading ⟨.operand, {}, .call f pos args r :: es⟩)
        (BehindArguments h es r f pos)
  | primary (es : List (Enclosure φ)) (r : RunningSum) (hc : d.cursor.Clear ['+', '-']) :
      Contract d primary (d.reading ⟨.operand, r, es⟩) (BehindPrimary es r)

def Tracks (enter : ∀ {β : Type}, Rule β → Descent φ ε β) : Prop :=
  ∀ {β : Type} {r : Rule β} {d : Desk φ ε} {e Q}, Contract h d r e Q → d.pending = none →
    (enter r).Follows h d e Q

end contract

section tracks

variable {h : Host φ ε} {enter : ∀ {β : Type}, Rule β → Descent φ ε β}
  {d : Desk φ ε} {es : List (Enclosure φ)} {r : RunningSum}

theorem eq_of_mem_signs {ch : Char} (hch : ch ∈ ['+', '-']) : ch = '+' ∨ ch = '-' := by
  simpa only [List.mem_cons, List.not_mem_nil, or_false] using hch

theorem eq_of_mem_factors {ch : Char} (hch : ch ∈ ['*', '/', '%']) :
    ch = '*' ∨ ch = '/' ∨ ch = '%' := by
  simpa only [List.mem_cons, List.not_mem_nil, or_false] using hch

theorem isMark_of_mem_signs {ch : Char} (hch : ch ∈ ['+', '-']) :
    isBlank ch = false ∧ ch.isAlphanum = false := by
  rcases eq_of_mem_signs hch with rfl | rfl <;> exact ⟨rfl, rfl⟩

theorem isMark_of_mem_factors {ch : Char} (hch : ch ∈ ['*', '/', '%']) :
    isBlank ch = false ∧ ch.isAlphanum = false := by
  rcases eq_of_mem_factors hch with rfl | rfl | rfl <;> exact ⟨rfl, rfl⟩

theorem ofMark_sign {ch : Char} (hch : ch ∈ ['+', '-']) : Token.ofMark ch = .sign (ch == '-') := by
  rcases eq_of_mem_signs hch with rfl | rfl <;> rfl

theorem ofMark_factor {ch : Char} (hch : ch ∈ ['*', '/', '%']) :
    Token.ofMark ch = .factor (.ofMark ch) := by
  rcases eq_of_mem_factors hch with rfl | rfl | rfl <;> rfl

theorem tracks_sum (henter : Tracks h @enter) (hd : d.pending = none) :
    (sum.body h enter).Follows h d (d.reading ⟨.operand, {}, es⟩) (BehindSum es) := by
  rw [body]
  refine (henter (.product es 0 false) hd).bind ?_
  rintro v d₁ _ ⟨hd₁, hc₁, rfl⟩
  exact henter (.sumFrom es v hc₁) hd₁

theorem tracks_sumFrom (henter : Tracks h @enter) (hd : d.pending = none) {v : Int}
    (hc : d.cursor.Clear ['*', '/', '%']) :
    ((sumFrom v).body h enter).Follows h d (d.reading ⟨.product v, {}, es⟩) (BehindSum es) := by
  rw [body]
  refine .skipBlanks ?_ ?_
  · rintro c hskip - hblank
    refine .takeAny (fun _ => isMark_of_mem_signs) hblank (fun sign hsign _ => ?_) fun hcs => ?_
    · have hread (symbols : Symbols φ) (pos : Nat) : State.read symbols ⟨.ofMark sign, pos⟩
          ⟨.product v, {}, es⟩ = .next ⟨.operand, { total := v, subtract := sign == '-' }, es⟩ := by
        rw [ofMark_sign hsign]
        simp only [State.read, State.readOperator, State.plus, RunningSum.initial_add]
      rw [hread]
      refine (henter (d := d.moved (c.advance 1)) (.product es v (sign == '-')) hd).bind ?_
      rintro w d₁ _ ⟨hd₁, hc₁, rfl⟩
      refine .instead (Cursor.outlook_add hc₁ w _ es) ?_
      have hadd : (if sign = '+' then v + w else v - w) =
          ({ total := v, subtract := sign == '-' } : RunningSum).add w := by
        rcases eq_of_mem_signs hsign with rfl | rfl <;> rfl
      rw [← hadd]
      exact henter (.sumFrom es _ hc₁) hd₁
    · exact .pure ⟨hd, hcs, hc.skipBlanks hskip, rfl⟩
  · rintro c - hpeek
    exact .pure ⟨hd, Cursor.clear_of_peek_eq_none hpeek, Cursor.clear_of_peek_eq_none hpeek, rfl⟩

theorem tracks_product (henter : Tracks h @enter) (hd : d.pending = none) {total : Int}
    {subtract : Bool} :
    (product.body h enter).Follows h d (d.reading ⟨.operand, { total, subtract }, es⟩)
      (BehindProduct es total subtract) := by
  rw [body]
  refine (henter (.signed es { total, subtract } false) hd).bind ?_
  rintro v d₁ _ ⟨hd₁, rfl⟩
  exact henter (.productFrom es total subtract v) hd₁

theorem tracks_productFrom (henter : Tracks h @enter) (hd : d.pending = none) {total : Int}
    {subtract : Bool} {v : Int} :
    ((productFrom v).body h enter).Follows h d (d.reading ⟨.product v, { total, subtract }, es⟩)
      (BehindProduct es total subtract) := by
  rw [body]
  refine .skipBlanks ?_ ?_
  · rintro c - - hblank
    refine .position (.takeAny (fun _ => isMark_of_mem_factors) hblank
      (fun mark hmark _ => ?_) fun hcs => ?_)
    · let r : RunningSum := { total, subtract, product := some (v, .ofMark mark, c.pos) }
      have hread (symbols : Symbols φ) : State.read symbols ⟨.ofMark mark, c.pos⟩
          ⟨.product v, { total, subtract }, es⟩ = .next ⟨.operand, r, es⟩ := by
        rw [ofMark_factor hmark]
        rfl
      rw [hread]
      refine (henter (d := d.moved (c.advance 1)) (.signed es r false) hd).bind ?_
      rintro w d₁ _ ⟨hd₁, rfl⟩
      cases happly : (Factor.ofMark mark).apply v w with
      | some p =>
        have hmultiply : r.multiply w = .ok p := by simp [r, RunningSum.multiply, happly]
        refine .instead ?_ (henter (.productFrom es total subtract p) hd₁)
        rw [State.resume_of_ok hmultiply]
        exact (Cursor.outlook_product p r es).symm
      | none =>
        have hmultiply : r.multiply w = .error ⟨.divideByZero, c.pos⟩ := by
          simp [r, RunningSum.multiply, happly]
        refine .fail ?_
        rw [State.resume_of_error hmultiply]
        exact Cursor.outlook_ended ..
    · exact .pure ⟨hd, hcs, rfl⟩
  · rintro c - hpeek
    exact .pure ⟨hd, Cursor.clear_of_peek_eq_none hpeek, rfl⟩

theorem tracks_signed (henter : Tracks h @enter) (hd : d.pending = none) {negate : Bool} :
    ((signed negate).body h enter).Follows h d (d.reading ⟨.operand, { r with negate }, es⟩)
      (BehindOperand es { r with negate := false }) := by
  rw [body]
  refine .skipBlanks ?_ ?_
  · rintro c - - hblank
    refine .takeAny (fun _ => isMark_of_mem_signs) hblank (fun sign hsign _ => ?_) fun hcs => ?_
    · have hread (symbols : Symbols φ) (pos : Nat) : State.read symbols ⟨.ofMark sign, pos⟩
          ⟨.operand, { r with negate }, es⟩ =
            .next ⟨.operand, { r with negate := negate ^^ sign == '-' }, es⟩ := by
        rw [ofMark_sign hsign]
        rfl
      rw [hread]
      exact henter (d := d.moved (c.advance 1)) (.signed es r _) hd
    · refine (henter (d := d.moved c) (.operand es { r with negate } hcs) hd).bind ?_
      rintro v d₁ _ ⟨hd₁, rfl⟩
      exact .instead (Cursor.outlook_resume negate v r es) (.pure ⟨hd₁, rfl⟩)
  · rintro c - hpeek
    exact .misplaced_end hpeek fun _ => rfl

theorem tracks_operand (henter : Tracks h @enter) (hd : d.pending = none)
    (hc : d.cursor.Clear ['+', '-']) :
    (operand.body h enter).Follows h d (d.reading ⟨.operand, r, es⟩) (BehindOperand es r) := by
  rw [body]
  refine (henter (.primary es r hc) hd).bind ?_
  rintro v d₁ _ (⟨hd₁, rfl⟩ | ⟨x, pos, hd₁, rfl⟩)
  · refine .takePending hd₁ fun d₂ hd₂ => .skipBlanks_then fun c hblank => .peek ?_
    split
    · next hpeek =>
      refine .misplaced_at (hpeek ▸ Option.some_ne_none _) hblank fun x hx => ?_
      rw [Cursor.lexemes_of_mark hpeek (by decide) (by decide)] at hx
      cases hx
      rfl
    · next hpeek =>
      have hclear : c.Clear ['('] := Cursor.clear_of_peek hblank fun ch hch hmem =>
        hpeek (List.mem_singleton.mp hmem ▸ hch)
      exact .instead (Cursor.outlook_primary hclear v r es) (.pure ⟨hd₂, rfl⟩)
  · -- A name is pending, and what stands behind it decides whether it is called.
    refine .takePending hd₁ fun d₂ hd₂ => .skipBlanks_then fun c hblank => .still rfl rfl ?_
    refine .takeShown (by decide) hblank (fun hpeek => ?_) fun hpeek hclear => ?_
    · cases hf : d₂.calculator.symbols.routine? x with
      | some f =>
        simp only [Desk.moved_calculator, hf, if_true]
        rw [State.read_name_function hf]
        refine (henter (d := d₂.moved (c.advance 1)) (.arguments es r f pos) hd₂).bind ?_
        rintro args d₃ _ ⟨hd₃, rfl⟩
        split
        · next hlength =>
          refine .position (d := d₃) (c := d₃.cursor) ?_
          rw [State.close, if_pos hlength]
          exact .call hd₃
        · next hlength =>
          rw [State.close, if_neg hlength]
          exact .fail (Cursor.outlook_ended ..)
      | none =>
        simp only [Desk.moved_calculator, hf, if_true]
        rw [State.read_name_unknown hf]
        exact .fail (Cursor.outlook_ended ..)
    · refine .fail (Cursor.outlook_of_stop (fun y hy => ?_) fun _ => rfl)
      exact State.read_name _ (hclear y hy '(' List.mem_cons_self) x pos r es

theorem tracks_arguments (henter : Tracks h @enter) (hd : d.pending = none) {f : Routine φ}
    {pos : Nat} :
    (arguments.body h enter).Follows h d (d.reading ⟨.arguments, {}, .call f pos [] r :: es⟩)
      (BehindArguments h es r f pos) := by
  rw [body]
  refine .skipBlanks (fun c _ _ hblank => ?_) fun c _ hpeek => .misplaced_end hpeek fun _ => rfl
  refine .takeShown (by decide) hblank (fun _ => .pure ⟨hd, rfl⟩) fun _ hclear => ?_
  refine .instead (Cursor.outlook_arguments hclear {} _) ?_
  exact henter (d := d.moved c) (.argumentsFrom es r f pos []) hd

theorem tracks_argumentsFrom (henter : Tracks h @enter) (hd : d.pending = none) {f : Routine φ}
    {pos : Nat} {args : List Int} :
    ((argumentsFrom args).body h enter).Follows h d
      (d.reading ⟨.operand, {}, .call f pos args r :: es⟩) (BehindArguments h es r f pos) := by
  rw [body]
  refine (henter (.sum (.call f pos args r :: es)) hd).bind ?_
  rintro v d₁ _ ⟨hd₁, hsign, hfactor, rfl⟩
  refine .skipBlanks (fun c hskip hsome hblank => ?_) fun c _ hpeek =>
    .misplaced_end hpeek fun _ => rfl
  refine .takeShown (by decide) hblank (fun _ => ?_) fun _ hcomma => ?_
  · have hread (symbols : Symbols φ) : State.read symbols ⟨.ofMark ',', c.pos⟩
        ⟨.product v, {}, .call f pos args r :: es⟩ =
          .next ⟨.operand, {}, .call f pos (args ++ [v]) r :: es⟩ := by
      change Step.next ⟨.operand, {}, .call f pos (args ++ [({} : RunningSum).add v]) r :: es⟩ = _
      rw [RunningSum.initial_add]
    rw [hread]
    exact henter (d := d₁.moved (c.advance 1)) (.argumentsFrom es r f pos _) hd₁
  · refine .takeShown (by decide) hblank (fun _ => ?_) fun _ hclosing => ?_
    · have hread (symbols : Symbols φ) : State.read symbols ⟨.ofMark ')', c.pos⟩
          ⟨.product v, {}, .call f pos args r :: es⟩ =
            State.close ⟨f, args ++ [v], pos, c.pos⟩ r es := by
        change State.close ⟨f, args ++ [({} : RunningSum).add v], pos, c.pos⟩ r es = _
        rw [RunningSum.initial_add]
      rw [hread]
      exact .pure ⟨hd₁, rfl⟩
    · refine .misplaced_at hsome hblank fun x hx => ?_
      exact State.readOperator_misplaced ((hsign.skipBlanks hskip).ne_sign hx)
        ((hfactor.skipBlanks hskip).ne_factor hx) (hclosing x hx ')' List.mem_cons_self)
        fun htoken => absurd htoken (hcomma x hx ',' List.mem_cons_self)

theorem tracks_group (henter : Tracks h @enter) (hd : d.pending = none) :
    Follows h (do
      let v ← enter sum
      if ← scan Cursor.skipBlanks then
        if ← scan (Cursor.takeShown · [')']) then return v else misplaced
      else misplaced) d (d.reading ⟨.operand, {}, .group r :: es⟩) (BehindPrimary es r) := by
  refine (henter (.sum (.group r :: es)) hd).bind ?_
  rintro v d₁ _ ⟨hd₁, hsign, hfactor, rfl⟩
  refine .skipBlanks (fun c hskip hsome hblank => ?_) fun c _ hpeek =>
    .misplaced_end hpeek fun _ => rfl
  refine .takeShown (by decide) hblank (fun _ => ?_) fun _ hclosing => ?_
  · have hread (symbols : Symbols φ) : State.read symbols ⟨.ofMark ')', c.pos⟩
        ⟨.product v, {}, .group r :: es⟩ = .next ⟨.primary v, r, es⟩ := by
      change Step.next ⟨.primary (({} : RunningSum).add v), r, es⟩ = _
      rw [RunningSum.initial_add]
    rw [hread]
    exact .pure (.inl ⟨hd₁, rfl⟩)
  · refine .misplaced_at hsome hblank fun x hx => ?_
    exact State.readOperator_misplaced ((hsign.skipBlanks hskip).ne_sign hx)
      ((hfactor.skipBlanks hskip).ne_factor hx) (hclosing x hx ')' List.mem_cons_self)
      fun _ => ⟨r, es, rfl⟩

theorem tracks_integer {c : Cursor} (hd : d.pending = none) (hdigit : c.peek.any Char.isDigit) :
    integer.Follows h (d.moved c) (d.reading ⟨.operand, r, es⟩) (BehindPrimary es r) := by
  obtain ⟨ch, hpeek, hch⟩ := (Option.any_eq_true _ _).mp hdigit
  have ha : ch.isAlphanum := Bool.or_eq_true_iff.mpr (.inr hch)
  have hword := Cursor.outlook_cons (h := h) (Cursor.lexemes_of_word hpeek ha) rfl
    (d.reading ⟨.operand, r, es⟩)
  have hawaits : State.Awaits (⟨.operand, r, es⟩ : State φ) := .inl rfl
  rw [d.advance_reading, hawaits.read_word] at hword
  intro hwithin r₁ d₁ hon
  have hwithin₁ := (Local.integer.onward hon).pos_le hwithin
  have hinteger : some (c.integer.1.map Int.ofNat, d.moved c.integer.2) = some (r₁, d₁) := hon
  by_cases hl : ∃ l : Literal, l.spelling = wordAt c.text c.pos
  · obtain ⟨l, hl⟩ := hl
    have hcursor : (c.takeWhile Char.isAlphanum).2 = ⟨c.text, c.pos + l.spelling.length⟩ := by
      rw [hl]
      rfl
    rw [← hl, State.readWord_literal, hcursor] at hword
    rw [Cursor.integer_of_literal c.text c.pos hl] at hinteger
    by_cases ht : l.TooLong
    · rw [if_pos ht] at hword hinteger
      cases hinteger
      exact ⟨hwithin₁, (Cursor.outlook_ended ..).symm.trans hword⟩
    · rw [if_neg ht] at hword hinteger
      cases hinteger
      exact ⟨hwithin₁, _, .inl ⟨hd, rfl⟩, hword⟩
  · have hmalformed := Numeral.read_eq_malformed_of_no_literal c.text c.pos (not_exists.mp hl)
    rw [Cursor.integer_of_no_literal c.text c.pos (not_exists.mp hl)] at hinteger
    cases hinteger
    have hhead : (wordAt c.text c.pos).head?.any Char.isDigit := by
      rw [Cursor.wordAt_of_peek hpeek ha]
      exact hch
    simp only [State.readWord, if_pos hhead, hmalformed] at hword
    exact ⟨hwithin₁, (Cursor.outlook_ended ..).symm.trans hword⟩

theorem tracks_name {c : Cursor} (hd : d.pending = none) (halpha : c.peek.any Char.isAlpha) :
    Follows h (do
      let name := String.ofList (← scan (Cursor.takeWhile · Char.isAlphanum))
      match (← symbols).value? name with
      | some v => return v
      | none =>
        setPending name c.pos
        return 0) (d.moved c) (d.reading ⟨.operand, r, es⟩) (BehindPrimary es r) := by
  obtain ⟨ch, hpeek, hch⟩ := (Option.any_eq_true _ _).mp halpha
  have ha : ch.isAlphanum := Bool.or_eq_true_iff.mpr (.inl hch)
  refine .word hpeek ha (.still rfl rfl ?_)
  have hawaits : State.Awaits (⟨.operand, r, es⟩ : State φ) := .inl rfl
  rw [hawaits.read_word]
  obtain ⟨x, hx⟩ := Cursor.exists_identifier hpeek hch
  rw [← hx, String.ofList_toList]
  change Descent.Follows h (match d.calculator.symbols.value? x.name with | some v => _ | none => _)
    _ _ _
  cases hv : d.calculator.symbols.value? x.name with
  | some v =>
    rw [State.readWord_variable hv]
    exact .pure (.inl ⟨hd, rfl⟩)
  | none =>
    rw [State.readWord_name hv]
    exact .still rfl rfl (.pure (.inr ⟨x.name, c.pos, rfl, rfl⟩))

theorem tracks_primary (henter : Tracks h @enter) (hd : d.pending = none)
    (hc : d.cursor.Clear ['+', '-']) :
    (primary.body h enter).Follows h d (d.reading ⟨.operand, r, es⟩) (BehindPrimary es r) := by
  rw [body]
  refine .skipBlanks (fun c hskip hsome hblank => ?_) fun c _ hpeek =>
    .misplaced_end hpeek fun _ => rfl
  refine .position (.peek (.takeShown (by decide) hblank (fun _ => ?_) fun _ hopening => ?_))
  · exact tracks_group (d := d.moved (c.advance 1)) henter hd
  · simp only [Bool.false_eq_true, if_false]
    split
    · next hdigit => exact tracks_integer hd hdigit
    · next hdigit =>
      split
      · next halpha => exact tracks_name hd halpha
      · next halpha =>
        refine .misplaced_at hsome hblank fun x hx => ?_
        obtain ⟨ch, hpeek⟩ := Option.ne_none_iff_exists'.mp hsome
        obtain ⟨t, xs, hlexemes, ⟨rfl, -⟩ | ⟨-, ha⟩⟩ :=
          Cursor.exists_lexemes_cons hpeek (hblank ch hpeek)
        · have hsign := hc.skipBlanks hskip
          have hfirst : c.lexemes.head? = some ⟨.ofMark ch, c.pos⟩ := by rw [hlexemes]; rfl
          obtain rfl : ⟨.ofMark ch, c.pos⟩ = x := Option.some.inj (hfirst.symm.trans hx)
          exact State.readOperand_misplaced (not_isWord_ofMark ch) (hsign.ne_sign hx)
            (hopening _ hx '(' List.mem_cons_self)
        · rw [hpeek] at hdigit halpha
          rcases Bool.or_eq_true_iff.mp ha with hch | hch
          · exact absurd hch halpha
          · exact absurd hch hdigit

/-- Whatever the rules do that a rule uses, it keeps to its contract if they do. -/
theorem Tracks.body (henter : Tracks h @enter) : Tracks h (Rule.body h enter) := by
  intro β r d e Q hcontract hd
  cases hcontract with
  | sum es => exact tracks_sum henter hd
  | sumFrom es v hc => exact tracks_sumFrom henter hd hc
  | product es total subtract => exact tracks_product henter hd
  | productFrom es total subtract v => exact tracks_productFrom henter hd
  | signed es r negate => exact tracks_signed henter hd
  | operand es r hc => exact tracks_operand henter hd hc
  | arguments es r f pos => exact tracks_arguments henter hd
  | argumentsFrom es r f pos args => exact tracks_argumentsFrom henter hd
  | primary es r hc => exact tracks_primary henter hd hc

end tracks

theorem tracks_run (h : Host φ ε) (n : Nat) : Tracks h (run h n) := by
  induction n with
  | zero => exact fun _ _ _ _ _ hon => nomatch hon
  | succ n ih => exact ih.body

end Rule

theorem follows_formula (h : Host φ ε) (n : Nat) {d : Desk φ ε} (hd : d.pending = none) :
    (formula h n).Follows h d (d.reading {}) fun v d₁ e₁ =>
      e₁ = d₁.evaluation (.ended (.value v)) := by
  refine (Rule.tracks_run h n (.sum []) hd).bind ?_
  rintro v d₁ _ ⟨-, hsign, hfactor, rfl⟩
  refine .skipBlanks (fun c hskip hsome hblank => .misplaced_at hsome hblank fun x hx => ?_)
    fun c _ hpeek => .instead ?_ (.pure rfl)
  · have hsign := hsign.skipBlanks hskip
    have hfactor := hfactor.skipBlanks hskip
    refine State.readOperator_of_not_isOperator (fun hoperator => ?_) v _ _
    obtain ⟨t, pos⟩ := x
    cases t with
    | sign minus => exact hsign.ne_sign hx minus rfl
    | factor op => exact hfactor.ne_factor hx op rfl
    | _ => exact hoperator
  · have hread : ∀ x ∈ c.lexemes.head?, State.read d₁.calculator.symbols x
        (⟨.product v, {}, []⟩ : State φ) = .stop (.value v) := by
      rw [Cursor.lexemes_of_peek_eq_none hpeek]
      exact nofun
    refine (Cursor.outlook_ended ..).trans (Cursor.outlook_of_stop hread fun _ => ?_).symm
    exact congrArg Ending.value (RunningSum.initial_add v)

def Ending.ofResult : Except Ending Int → Ending
  | .ok v => .value v
  | .error e => e

/-- A descent that has a result, with whatever fuel, evaluates the text. -/
theorem evaluation_of_formula {h : Host φ ε} {n : Nat} {text : List Char} {c : Calculator φ ε}
    {r : Except Ending Int} {d : Desk φ ε}
    (hon : (formula h n).on { cursor := ⟨text, 0⟩, calculator := c } = some (r, d)) :
    evaluate h text c = (.ofResult r, d.calculator) ∧ (evaluation h text c).calls = d.calls := by
  have hfollows := (follows_formula h n rfl (Nat.zero_le _) r d hon).2
  have hstart : (Cursor.mk text 0).outlook h { calculator := c } =
      ⟨.ended (evaluate h text c).1, (evaluation h text c).calls, (evaluate h text c).2⟩ := rfl
  have hend : (Cursor.mk text 0).outlook h { calculator := c } =
      d.evaluation (.ended (.ofResult r)) := by
    cases r with
    | ok v =>
      obtain ⟨e₁, rfl, he₁⟩ := hfollows
      exact he₁.symm.trans (Cursor.outlook_ended ..)
    | error e => exact hfollows.symm
  obtain ⟨hstatus, hcalls, hcalculator⟩ := Evaluation.mk.inj (hstart.symm.trans hend)
  exact ⟨Prod.ext (Status.ended.inj hstatus) hcalculator, hcalls⟩

end Abacus.Formula
