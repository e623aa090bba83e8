import Abacus.Formula.Descent
import Abacus.Proofs.Descent.Cursor

/-!
# Every rule makes progress

A rule that returns has passed over at least one character, except that a sum or a product may have
nothing to take up. A rule enters another one behind such a character or else one further down in
the grammar; the fuel that a text asks for is therefore never used up (`exists_descend`).
-/
namespace Abacus.Formula

variable {φ ε α β : Type}

namespace Descent

variable {d : Desk φ ε}

theorem on_bind (x : Descent φ ε α) (f : α → Descent φ ε β) (d : Desk φ ε) :
    on (x >>= f) d = match x.on d with
      | some (.ok a, d₁) => (f a).on d₁
      | some (.error e, d₁) => some (.error e, d₁)
      | none => none := by
  change (x.run.run d).bind _ = _
  unfold on
  cases x.run.run d with
  | none => rfl
  | some p =>
    obtain ⟨r, d₁⟩ := p
    cases r <;> rfl

def Ends (x : Descent φ ε α) (d : Desk φ ε) (Q : α → Desk φ ε → Prop) : Prop :=
  ∃ r d₁, x.on d = some (r, d₁) ∧ d.cursor.Onward d₁.cursor ∧ ∀ a, r = .ok a → Q a d₁

namespace Ends

variable {Q : α → Desk φ ε → Prop} {R : β → Desk φ ε → Prop}

theorem bind {x : Descent φ ε α} {f : α → Descent φ ε β} (hx : x.Ends d Q)
    (hf : ∀ a d₁, d.cursor.Onward d₁.cursor → Q a d₁ → (f a).Ends d₁ R) : Ends (x >>= f) d R := by
  obtain ⟨r, d₁, hon, honward, hQ⟩ := hx
  cases r with
  | ok a =>
    obtain ⟨r₂, d₂, hon₂, honward₂, hR⟩ := hf a d₁ honward (hQ a rfl)
    exact ⟨r₂, d₂, by rw [on_bind, hon]; exact hon₂, honward.trans honward₂, hR⟩
  | error e => exact ⟨.error e, d₁, by rw [on_bind, hon], honward, nofun⟩

theorem pure {a : α} (ha : Q a d) : Ends (Pure.pure a) d Q := by
  refine ⟨.ok a, d, rfl, .refl _, ?_⟩
  rintro _ ⟨⟩
  exact ha

theorem mono {R : α → Desk φ ε → Prop} {x : Descent φ ε α} (hx : x.Ends d Q)
    (hR : ∀ a d₁, d.cursor.Onward d₁.cursor → Q a d₁ → R a d₁) : x.Ends d R := by
  obtain ⟨r, d₁, hon, honward, hQ⟩ := hx
  exact ⟨r, d₁, hon, honward, fun a ha => hR a d₁ honward (hQ a ha)⟩

theorem fail (kind : ErrorKind) (pos : Nat) : Ends (Descent.fail kind pos) d Q :=
  ⟨_, d, rfl, .refl _, nofun⟩

theorem step {f : Desk φ ε → Except Ending α × Desk φ ε}
    (hf : d.cursor.Onward (f d).2.cursor) (hQ : ∀ a, (f d).1 = .ok a → Q a (f d).2) :
    Ends (Descent.step f) d Q :=
  ⟨_, _, rfl, hf, hQ⟩

theorem misplaced : Ends Descent.misplaced d Q :=
  bind (step (Q := fun _ _ => True) (.refl _) fun _ _ => trivial) fun _ _ _ _ => fail _ _

theorem still {f : Desk φ ε → Except Ending α × Desk φ ε} (hf : (f d).2.cursor = d.cursor) :
    Ends (Descent.step f) d fun _ d₁ => d₁.cursor = d.cursor :=
  step (hf ▸ .refl _) fun _ _ => hf

theorem scan {f : Cursor → α × Cursor} {a : α} {c : Cursor} (hf : f d.cursor = (a, c))
    (honward : d.cursor.Onward c) (ha : Q a { d with cursor := c }) :
    Ends (Descent.scan f) d Q := by
  refine ⟨.ok a, { d with cursor := c }, ?_, honward, ?_⟩
  · change some (Except.ok (f d.cursor).1, { d with cursor := (f d.cursor).2 }) = _
    rw [hf]
  · rintro _ ⟨⟩
    exact ha

theorem skipBlanks : Ends (Descent.scan Cursor.skipBlanks) d fun _ _ => True :=
  scan rfl d.cursor.onward_skipBlanks trivial

theorem takeAny (cs : List Char) :
    Ends (Descent.scan (Cursor.takeAny · cs)) d
      fun a d₁ => a.isSome → d.cursor.pos < d₁.cursor.pos := by
  rcases d.cursor.takeAny_cases cs with ⟨ch, -, hpeek, htake⟩ | ⟨-, htake⟩
  · exact scan htake (Cursor.onward_of_peek hpeek) fun _ => Nat.lt_succ_self _
  · exact scan htake (.refl _) nofun

theorem takeShown (ch : Char) :
    Ends (Descent.scan (Cursor.takeShown · [ch])) d
      fun a d₁ => (a = true → d.cursor.pos < d₁.cursor.pos) ∧ (a = false → d₁ = d) := by
  rcases d.cursor.takeShown_cases ch with ⟨hpeek, htake⟩ | ⟨-, htake⟩
  · exact scan htake (Cursor.onward_of_peek hpeek) ⟨fun _ => Nat.lt_succ_self _, nofun⟩
  · exact scan htake (.refl _) ⟨nofun, fun _ => rfl⟩

end Ends

end Descent

namespace Rule

/-- How far up in the grammar a rule stands: it enters only lower ones where it begins. -/
def level : Rule α → Nat
  | sumFrom _ => 0
  | productFrom _ => 0
  | primary => 1
  | operand => 2
  | signed _ => 3
  | product => 4
  | sum => 5
  | argumentsFrom _ => 6
  | arguments => 7

def gain : Rule α → Nat
  | sumFrom _ => 0
  | productFrom _ => 0
  | _ => 1

/-- Fuel beyond this is never used up by the rule. -/
def need (r : Rule α) (c : Cursor) : Nat := r.level + 6 * c.rest.length

def Progresses (r : Rule α) (x : Descent φ ε α) (d : Desk φ ε) : Prop :=
  x.Ends d fun _ d₁ => d.cursor.pos + r.gain ≤ d₁.cursor.pos

def Suffices (n : Nat) (enter : ∀ {β : Type}, Rule β → Descent φ ε β) : Prop :=
  ∀ {β : Type} (r : Rule β) (d : Desk φ ε), r.need d.cursor < n → r.Progresses (enter r) d

section progress

variable {h : Host φ ε} {enter : ∀ {β : Type}, Rule β → Descent φ ε β} {n : Nat}
  {r : Rule α} {d d₁ : Desk φ ε}

/-- A lower rule can be entered everywhere. -/
theorem Suffices.below (henter : Suffices n @enter) (hn : r.need d.cursor ≤ n)
    (honward : d.cursor.Onward d₁.cursor) (s : Rule β) (hlevel : s.level < r.level) :
    s.Progresses (enter s) d₁ := by
  have hle := honward.length_rest_le
  refine henter s d₁ ?_
  simp only [need] at hn ⊢
  omega

/-- Behind a character every rule can be entered. -/
theorem Suffices.behind (henter : Suffices n @enter) (hn : r.need d.cursor ≤ n)
    (honward : d.cursor.Onward d₁.cursor) (hlt : d.cursor.pos < d₁.cursor.pos) (s : Rule β)
    (hlevel : s.level < r.level + 6) : s.Progresses (enter s) d₁ := by
  have hlength := honward.length_rest_lt hlt
  refine henter s d₁ ?_
  simp only [need] at hn ⊢
  omega

theorem progresses_sum (henter : Suffices n @enter) (hn : sum.need d.cursor ≤ n) :
    sum.Progresses (sum.body h enter) d := by
  rw [body]
  refine .bind (henter.below hn (.refl _) product (by simp [level])) fun v d₁ h₁ hv => ?_
  refine (henter.behind hn h₁ hv (sumFrom v) (by simp [level])).mono fun _ d₂ h₂ _ => ?_
  exact hv.trans h₂.le

theorem progresses_product (henter : Suffices n @enter) (hn : product.need d.cursor ≤ n) :
    product.Progresses (product.body h enter) d := by
  rw [body]
  refine .bind (henter.below hn (.refl _) (signed false) (by simp [level])) fun v d₁ h₁ hv => ?_
  refine (henter.behind hn h₁ hv (productFrom v) (by simp [level])).mono fun _ d₂ h₂ _ => ?_
  exact hv.trans h₂.le

theorem progresses_sumFrom {v : Int} (henter : Suffices n @enter)
    (hn : (sumFrom v).need d.cursor ≤ n) :
    (sumFrom v).Progresses ((sumFrom v).body h enter) d := by
  rw [body]
  refine .bind .skipBlanks fun more d₁ h₁ _ => ?_
  split
  · refine .bind (.takeAny _) fun sign? d₂ h₂ hsign => ?_
    have hle := h₁.le
    cases sign? with
    | none => exact .pure (hle.trans h₂.le)
    | some sign =>
      have hlt : d.cursor.pos < d₂.cursor.pos := hle.trans_lt (hsign rfl)
      refine .bind (henter.behind hn (h₁.trans h₂) hlt product (by simp [level]))
        fun w d₃ h₃ hw => ?_
      have honward := (h₁.trans h₂).trans h₃
      refine (henter.behind hn honward (hlt.trans hw) (sumFrom _) (by simp [level])).mono
        fun _ d₄ h₄ _ => (honward.trans h₄).le
  · exact .pure h₁.le

theorem progresses_productFrom {v : Int} (henter : Suffices n @enter)
    (hn : (productFrom v).need d.cursor ≤ n) :
    (productFrom v).Progresses ((productFrom v).body h enter) d := by
  rw [body]
  refine .bind .skipBlanks fun more d₁ h₁ _ => ?_
  split
  · refine .bind (.still rfl) fun pos d₂ h₂ _ => ?_
    refine .bind (.takeAny _) fun mark? d₃ h₃ hmark => ?_
    have hle := (h₁.trans h₂).le
    cases mark? with
    | none => exact .pure (hle.trans h₃.le)
    | some mark =>
      have hlt : d.cursor.pos < d₃.cursor.pos := hle.trans_lt (hmark rfl)
      have honward := (h₁.trans h₂).trans h₃
      refine .bind (henter.behind hn honward hlt (signed false) (by simp [level]))
        fun w d₄ h₄ hw => ?_
      split
      · have honward := honward.trans h₄
        exact (henter.behind hn honward (hlt.trans hw) (productFrom _) (by simp [level])).mono
          fun _ d₅ h₅ _ => (honward.trans h₅).le
      · exact .fail _ _
  · exact .pure h₁.le

theorem progresses_signed {negate : Bool} (henter : Suffices n @enter)
    (hn : (signed negate).need d.cursor ≤ n) :
    (signed negate).Progresses ((signed negate).body h enter) d := by
  rw [body]
  refine .bind .skipBlanks fun more d₁ h₁ _ => ?_
  split
  · refine .bind (.takeAny _) fun sign? d₂ h₂ hsign => ?_
    have honward := h₁.trans h₂
    cases sign? with
    | none =>
      refine .bind (henter.below hn honward operand (by simp [level])) fun v d₃ h₃ hv => ?_
      exact .pure (Nat.lt_of_le_of_lt honward.le hv)
    | some sign =>
      have hlt : d.cursor.pos < d₂.cursor.pos := h₁.le.trans_lt (hsign rfl)
      exact (henter.behind hn honward hlt (signed _) (by simp [level])).mono
        fun _ d₃ h₃ _ => Nat.lt_of_lt_of_le hlt h₃.le
  · exact .misplaced

theorem progresses_operand (henter : Suffices n @enter) (hn : operand.need d.cursor ≤ n) :
    operand.Progresses (operand.body h enter) d := by
  rw [body]
  refine .bind (henter.below hn (.refl _) primary (by simp [level])) fun v d₁ h₁ hv => ?_
  have hlt : ∀ {d₂ : Desk φ ε}, d₁.cursor.Onward d₂.cursor → d.cursor.pos < d₂.cursor.pos :=
    fun h₂ => Nat.lt_of_lt_of_le hv h₂.le
  refine .bind (.still rfl) fun pending d₂ h₂ _ => ?_
  cases pending with
  | none =>
    refine .bind .skipBlanks fun _ d₃ h₃ _ => ?_
    refine .bind (.still rfl) fun _ d₄ h₄ _ => ?_
    split
    · exact .misplaced
    · exact .pure (hlt ((h₂.trans h₃).trans h₄))
  | some name =>
    refine .bind .skipBlanks fun _ d₃ h₃ _ => ?_
    refine .bind (.still rfl) fun s d₄ h₄ _ => ?_
    refine .bind (.takeShown _) fun opens d₅ h₅ _ => ?_
    have h₁₅ := ((h₂.trans h₃).trans h₄).trans h₅
    split
    · split
      · refine .bind (henter.behind hn (h₁.trans h₁₅) (hlt h₁₅) arguments (by simp [level]))
          fun args d₆ h₆ _ => ?_
        split
        · refine .bind (.still rfl) fun pos d₇ h₇ _ => ?_
          exact .step (.refl _) fun _ _ => hlt ((h₁₅.trans h₆).trans h₇)
        · exact .fail _ _
      · exact .fail _ _
    · exact .fail _ _

theorem progresses_arguments (henter : Suffices n @enter) (hn : arguments.need d.cursor ≤ n) :
    arguments.Progresses (arguments.body h enter) d := by
  rw [body]
  refine .bind .skipBlanks fun more d₁ h₁ _ => ?_
  split
  · refine .bind (.takeShown _) fun closes d₂ h₂ hcloses => ?_
    split
    · next hc => exact .pure (Nat.lt_of_le_of_lt h₁.le (hcloses.1 hc))
    · have honward := h₁.trans h₂
      exact (henter.below hn honward (argumentsFrom []) (by simp [level])).mono
        fun _ d₃ h₃ hargs => Nat.lt_of_le_of_lt honward.le hargs
  · exact .misplaced

theorem progresses_argumentsFrom {args : List Int} (henter : Suffices n @enter)
    (hn : (argumentsFrom args).need d.cursor ≤ n) :
    (argumentsFrom args).Progresses ((argumentsFrom args).body h enter) d := by
  rw [body]
  refine .bind (henter.below hn (.refl _) sum (by simp [level])) fun v d₁ h₁ hv => ?_
  refine .bind .skipBlanks fun more d₂ h₂ _ => ?_
  split
  · refine .bind (.takeShown _) fun comma d₃ h₃ _ => ?_
    have hlt : d.cursor.pos < d₃.cursor.pos := Nat.lt_of_lt_of_le hv (h₂.trans h₃).le
    split
    · have honward := (h₁.trans h₂).trans h₃
      exact (henter.behind hn honward hlt (argumentsFrom _) (by simp [level])).mono
        fun _ d₄ h₄ _ => Nat.lt_of_lt_of_le hlt h₄.le
    · refine .bind (.takeShown _) fun closes d₄ h₄ _ => ?_
      split
      · exact .pure (Nat.lt_of_lt_of_le hlt h₄.le)
      · exact .misplaced
  · exact .misplaced

theorem progresses_primary (henter : Suffices n @enter) (hn : primary.need d.cursor ≤ n) :
    primary.Progresses (primary.body h enter) d := by
  rw [body]
  refine .bind .skipBlanks fun more d₁ h₁ _ => ?_
  split
  · refine .bind (.still rfl) fun pos d₂ h₂ _ => ?_
    refine .bind (.scan (Q := fun c d₃ => c = d₂.cursor.peek ∧ d₃ = d₂) rfl (.refl _) ⟨rfl, rfl⟩)
      fun c d₃ h₃ hc => ?_
    refine .bind (.takeShown _) fun opens d₄ h₄ hopens => ?_
    have honward := ((h₁.trans h₂).trans h₃).trans h₄
    split
    · next ho =>
      have hlt : d.cursor.pos < d₄.cursor.pos :=
        Nat.lt_of_le_of_lt ((h₁.trans h₂).trans h₃).le (hopens.1 ho)
      refine .bind (henter.behind hn honward hlt sum (by simp [level])) fun v d₅ h₅ _ => ?_
      refine .bind .skipBlanks fun more d₆ h₆ _ => ?_
      split
      · refine .bind (.takeShown _) fun closes d₇ h₇ _ => ?_
        split
        · exact .pure (Nat.lt_of_lt_of_le hlt ((h₅.trans h₆).trans h₇).le)
        · exact .misplaced
      · exact .misplaced
    · next ho =>
      -- Nothing but blanks has been passed over so far.
      obtain ⟨rfl, rfl⟩ := hc
      obtain rfl := hopens.2 (Bool.not_eq_true _ ▸ ho)
      split
      · refine .step d₄.cursor.onward_integer fun v hv => ?_
        cases hn : d₄.cursor.integer.1 with
        | ok n => exact Nat.lt_of_le_of_lt honward.le (Cursor.pos_lt_integer hn)
        | error e =>
          rw [hn] at hv
          cases hv
      · split
        · next halpha =>
          have halnum : d₄.cursor.peek.any Char.isAlphanum := by
            cases hpeek : d₄.cursor.peek with
            | none => rw [hpeek] at halpha; exact halpha
            | some ch => rw [hpeek] at halpha; exact Bool.or_eq_true_iff.mpr (.inl halpha)
          refine .bind (.scan (Q := fun _ d₅ => d.cursor.pos < d₅.cursor.pos) rfl
            (d₄.cursor.onward_takeWhile _) ?_) fun name d₅ h₅ hlt => ?_
          · exact Nat.lt_of_le_of_lt honward.le (Cursor.pos_lt_takeWhile halnum)
          · refine .bind (.still rfl) fun s d₆ h₆ _ => ?_
            split
            · exact .pure (Nat.lt_of_lt_of_le hlt h₆.le)
            · refine .bind (.still rfl) fun _ d₇ h₇ _ => ?_
              exact .pure (Nat.lt_of_lt_of_le hlt (h₆.trans h₇).le)
        · exact .misplaced
  · exact .misplaced

/-- Rules use up one unit of fuel before they enter others. -/
theorem Suffices.body (henter : Suffices n @enter) : Suffices (n + 1) (Rule.body h enter) := by
  intro β r d hn
  have hn : r.need d.cursor ≤ n := Nat.le_of_lt_succ hn
  cases r with
  | sum => exact progresses_sum henter hn
  | sumFrom v => exact progresses_sumFrom henter hn
  | product => exact progresses_product henter hn
  | productFrom v => exact progresses_productFrom henter hn
  | signed negate => exact progresses_signed henter hn
  | operand => exact progresses_operand henter hn
  | arguments => exact progresses_arguments henter hn
  | argumentsFrom args => exact progresses_argumentsFrom henter hn
  | primary => exact progresses_primary henter hn

end progress

/-- With fuel enough a rule has a result, and passes over at least one character unless it takes up
a sum or a product. -/
theorem suffices_run (h : Host φ ε) (n : Nat) : Suffices n (run h n) := by
  induction n with
  | zero => exact fun r d hn => absurd hn (Nat.not_lt_zero _)
  | succ n ih => exact ih.body

end Rule

/-- A descent always has a result. -/
theorem exists_descend (h : Host φ ε) (text : List Char) (c : Calculator φ ε) :
    ∃ r d, descend h text c = some (r, d) ∧ d.cursor.text = text ∧ d.cursor.pos ≤ text.length := by
  have hneed : Rule.sum.need ⟨text, 0⟩ < fuelFor text := by
    change 5 + 6 * (text.drop 0).length < 6 * text.length + 6
    rw [List.drop_zero]
    omega
  have hsum : Rule.sum.Progresses (Rule.sum.run h (fuelFor text)) ⟨⟨text, 0⟩, none, [], c⟩ :=
    Rule.suffices_run h _ _ _ hneed
  have hends : (formula h (fuelFor text)).Ends ⟨⟨text, 0⟩, none, [], c⟩ fun _ _ => True := by
    refine .bind hsum fun v d h₁ _ => ?_
    refine .bind .skipBlanks fun more d₁ h₁ _ => ?_
    split
    · exact .misplaced
    · exact .pure trivial
  obtain ⟨r, d, hon, honward, -⟩ := hends
  have hle := honward.pos_le (Nat.zero_le _)
  rw [honward.text] at hle
  exact ⟨r, d, hon, honward.text, hle⟩

end Abacus.Formula
