import Abacus.Proofs.Descent.Locality
import Abacus.Proofs.Descent.Outlook

/-!
# Following an evaluation by descent

A computation on a desk follows an evaluation by tokens if what it returns can be had from the
evaluation, at a later place, and if it fails as the evaluation does. Computations that follow can
be put one behind the other; the steps of the cursor are those of the evaluation.
-/
namespace Abacus.Formula

variable {φ ε α β : Type}

namespace Desk

def moved (d : Desk φ ε) (c : Cursor) : Desk φ ε := { d with cursor := c }

theorem moved_calculator (d : Desk φ ε) (c : Cursor) : (d.moved c).calculator = d.calculator := rfl

def evaluation (d : Desk φ ε) (s : Status φ) : Evaluation φ ε := ⟨s, d.calls, d.calculator⟩

def reading (d : Desk φ ε) (s : State φ) : Evaluation φ ε := d.evaluation (.reading s)

def taking (h : Host φ ε) (d : Desk φ ε) : Step φ → Evaluation φ ε
  | .next s => d.reading s
  | .stop r => d.evaluation (.ended r)
  | .call y s =>
    ⟨s.resume (y.run h d.calculator).1, y :: d.calls, (y.run h d.calculator).2⟩

theorem advance_reading (h : Host φ ε) (d : Desk φ ε) (s : State φ) (x : Lexeme) :
    (d.reading s).advance h x = d.taking h (s.read d.calculator.symbols x) := by
  simp only [reading, evaluation, Evaluation.advance]
  cases s.read d.calculator.symbols x <;> rfl

end Desk

namespace Descent

/-- Where the computation returns, what the evaluation `e` comes to can be had from another one that
satisfies `Q`; where it fails, it fails as `e` does. -/
def Follows (h : Host φ ε) (x : Descent φ ε α) (d : Desk φ ε) (e : Evaluation φ ε)
    (Q : α → Desk φ ε → Evaluation φ ε → Prop) : Prop :=
  d.cursor.pos ≤ d.cursor.text.length → ∀ r d₁, x.on d = some (r, d₁) →
    d₁.cursor.pos ≤ d₁.cursor.text.length ∧
      match r with
      | .ok a => ∃ e₁, Q a d₁ e₁ ∧ d₁.cursor.outlook h e₁ = d.cursor.outlook h e
      | .error k => d₁.evaluation (.ended k) = d.cursor.outlook h e

namespace Follows

variable {h : Host φ ε} {d : Desk φ ε} {e : Evaluation φ ε}
  {P : α → Desk φ ε → Evaluation φ ε → Prop} {Q : β → Desk φ ε → Evaluation φ ε → Prop}

theorem bind {x : Descent φ ε α} {f : α → Descent φ ε β} (hx : x.Follows h d e P)
    (hf : ∀ a d₁ e₁, P a d₁ e₁ → (f a).Follows h d₁ e₁ Q) : Follows h (x >>= f) d e Q := by
  intro hd r d₂ hon
  rcases on_bind_cases hon with ⟨a, d₁, h₁, h₂⟩ | ⟨k, rfl, h₁⟩
  · obtain ⟨hd₁, e₁, hP, he₁⟩ := hx hd (.ok a) d₁ h₁
    rw [← he₁]
    exact hf a d₁ e₁ hP hd₁ r d₂ h₂
  · exact hx hd (.error k) d₂ h₁

theorem pure {b : β} (hb : Q b d e) : Follows h (Pure.pure b) d e Q := by
  rintro hd r d₁ ⟨⟩
  exact ⟨hd, e, hb, rfl⟩

/-- Another evaluation that comes to the same may be followed instead. -/
theorem instead {x : Descent φ ε α} {e' : Evaluation φ ε}
    (he : d.cursor.outlook h e' = d.cursor.outlook h e) (hx : x.Follows h d e' P) :
    x.Follows h d e P := by
  intro hd r d₁ hon
  rw [← he]
  exact hx hd r d₁ hon

theorem scan {f : Cursor → α × Cursor} {g : α → Descent φ ε β} {a : α} {c : Cursor}
    {e₁ : Evaluation φ ε} (hf : f d.cursor = (a, c)) (honward : d.cursor.Onward c)
    (he : c.outlook h e₁ = d.cursor.outlook h e) (hg : (g a).Follows h (d.moved c) e₁ Q) :
    Follows h (Descent.scan f >>= g) d e Q := by
  intro hd r d₂ hon
  have hscan : (Descent.scan f).on d = some (.ok a, d.moved c) := by
    change some (Except.ok (f d.cursor).1, { d with cursor := (f d.cursor).2 }) = _
    rw [hf]
    rfl
  rw [on_bind, hscan] at hon
  rw [← he]
  exact hg (honward.pos_le hd) r d₂ hon

theorem fail {kind : ErrorKind} {pos : Nat}
    (he : d.cursor.outlook h e = d.evaluation (.ended (.failure ⟨kind, pos⟩))) :
    Follows h (Descent.fail kind pos) d e P := by
  rintro hd r d₁ ⟨⟩
  exact ⟨hd, he.symm⟩

variable {c : Cursor} {s : State φ}

theorem skipBlanks {g : Bool → Descent φ ε β}
    (hmore : ∀ c, c = d.cursor.skipBlanks.2 → c.peek ≠ none →
      (∀ ch ∈ c.peek, isBlank ch = false) → (g true).Follows h (d.moved c) (d.reading s) Q)
    (hend : ∀ c, c = d.cursor.skipBlanks.2 → c.peek = none →
      (g false).Follows h (d.moved c) (d.reading s) Q) :
    Follows h (Descent.scan Cursor.skipBlanks >>= g) d (d.reading s) Q := by
  have honward := d.cursor.onward_skipBlanks
  have houtlook := d.cursor.outlook_skipBlanks (h := h) (d.reading s)
  rcases d.cursor.skipBlanks_cases with ⟨hsome, ch, hpeek, hblank⟩ | ⟨hnone, hpeek⟩
  · refine scan (Prod.ext hsome rfl) honward houtlook (hmore _ rfl ?_ ?_)
    · rw [hpeek]
      exact Option.some_ne_none ch
    · rw [hpeek]
      rintro _ ⟨⟩
      exact hblank
  · exact scan (Prod.ext hnone rfl) honward houtlook (hend _ rfl hpeek)

theorem skipBlanks_then {y : Descent φ ε β}
    (hy : ∀ c, (∀ ch ∈ c.peek, isBlank ch = false) → y.Follows h (d.moved c) (d.reading s) Q) :
    Follows h (Descent.scan Cursor.skipBlanks >>= fun _ => y) d (d.reading s) Q := by
  refine skipBlanks (fun c _ _ hblank => hy c hblank) fun c _ hpeek => hy c ?_
  rw [hpeek]
  exact nofun

theorem still {f : Desk φ ε → Except Ending α × Desk φ ε} {a : α} {d₁ : Desk φ ε}
    {g : α → Descent φ ε β} (hf : f d = (.ok a, d₁)) (hcursor : d₁.cursor = d.cursor)
    (hg : (g a).Follows h d₁ e Q) : Follows h (Descent.step f >>= g) d e Q := by
  intro hd r d₂ hon
  have hstep : (Descent.step f).on d = some (.ok a, d₁) := congrArg some hf
  rw [on_bind, hstep] at hon
  rw [← hcursor] at hd ⊢
  exact hg hd r d₂ hon

theorem takePending {p : Option (String × Nat)} {g : Option (String × Nat) → Descent φ ε β}
    (hp : d.pending = p)
    (hg : ∀ d₁ : Desk φ ε, d₁.pending = none → (g p).Follows h d₁ (d₁.reading s) Q) :
    Follows h (Descent.takePending >>= g) d (d.reading s) Q := by
  refine still ?_ ?_ (hg { d with pending := none } rfl)
  · rw [hp]
  · rfl

/-- A mark is read as the cursor passes over it. -/
theorem mark {f : Cursor → α × Cursor} {a : α} {g : α → Descent φ ε β} {ch : Char}
    (hf : f c = (a, c.advance 1)) (hpeek : c.peek = some ch) (hb : isBlank ch = false)
    (ha : ch.isAlphanum = false)
    (hg : (g a).Follows h (d.moved (c.advance 1))
      (d.taking h (s.read d.calculator.symbols ⟨.ofMark ch, c.pos⟩)) Q) :
    Follows h (Descent.scan f >>= g) (d.moved c) (d.reading s) Q := by
  refine scan hf (Cursor.onward_of_peek hpeek) ?_ hg
  rw [← d.advance_reading]
  exact Cursor.outlook_cons (Cursor.lexemes_of_mark hpeek hb ha) rfl _

theorem position {g : Nat → Descent φ ε β}
    (hg : (g c.pos).Follows h (d.moved c) e Q) :
    Follows h (Descent.position >>= g) (d.moved c) e Q :=
  scan (d := d.moved c) rfl (.refl c) rfl hg

theorem peek {g : Option Char → Descent φ ε β} (hg : (g c.peek).Follows h (d.moved c) e Q) :
    Follows h (Descent.peek >>= g) (d.moved c) e Q :=
  scan (d := d.moved c) rfl (.refl c) rfl hg

theorem word {g : List Char → Descent φ ε β} {ch : Char} (hpeek : c.peek = some ch)
    (ha : ch.isAlphanum)
    (hg : (g (wordAt c.text c.pos)).Follows h (d.moved (c.takeWhile Char.isAlphanum).2)
      (d.taking h (s.read d.calculator.symbols ⟨.word (wordAt c.text c.pos), c.pos⟩)) Q) :
    Follows h (Descent.scan (Cursor.takeWhile · Char.isAlphanum) >>= g) (d.moved c) (d.reading s)
      Q := by
  refine scan (d := d.moved c) rfl (c.onward_takeWhile _) ?_ hg
  rw [← d.advance_reading]
  exact Cursor.outlook_cons (Cursor.lexemes_of_word hpeek ha) rfl _

theorem takeAny {cs : List Char} {g : Option Char → Descent φ ε β}
    (hmarks : ∀ ch ∈ cs, isBlank ch = false ∧ ch.isAlphanum = false)
    (hblank : ∀ ch ∈ c.peek, isBlank ch = false)
    (htake : ∀ ch ∈ cs, c.peek = some ch → (g (some ch)).Follows h (d.moved (c.advance 1))
      (d.taking h (s.read d.calculator.symbols ⟨.ofMark ch, c.pos⟩)) Q)
    (hnone : c.Clear cs → (g none).Follows h (d.moved c) (d.reading s) Q) :
    Follows h (Descent.scan (Cursor.takeAny · cs) >>= g) (d.moved c) (d.reading s) Q := by
  rcases c.takeAny_cases cs with ⟨ch, hch, hpeek, hf⟩ | ⟨hcs, hf⟩
  · exact mark hf hpeek (hmarks ch hch).1 (hmarks ch hch).2 (htake ch hch hpeek)
  · exact scan hf (.refl c) rfl (hnone (Cursor.clear_of_peek hblank hcs))

theorem takeShown {ch : Char} {g : Bool → Descent φ ε β}
    (hmark : isBlank ch = false ∧ ch.isAlphanum = false)
    (hblank : ∀ ch ∈ c.peek, isBlank ch = false)
    (htake : c.peek = some ch → (g true).Follows h (d.moved (c.advance 1))
      (d.taking h (s.read d.calculator.symbols ⟨.ofMark ch, c.pos⟩)) Q)
    (hnot : c.peek ≠ some ch → c.Clear [ch] → (g false).Follows h (d.moved c) (d.reading s) Q) :
    Follows h (Descent.scan (Cursor.takeShown · [ch]) >>= g) (d.moved c) (d.reading s) Q := by
  rcases c.takeShown_cases ch with ⟨hpeek, hf⟩ | ⟨hpeek, hf⟩
  · exact mark hf hpeek hmark.1 hmark.2 (htake hpeek)
  · refine scan hf (.refl c) rfl (hnot hpeek (Cursor.clear_of_peek hblank fun ch' hch' => ?_))
    rintro hmem
    rw [List.mem_singleton.mp hmem] at hch'
    exact hpeek hch'

theorem misplaced_at (hsome : c.peek ≠ none) (hblank : ∀ ch ∈ c.peek, isBlank ch = false)
    (hread : ∀ x ∈ c.lexemes.head?, s.read d.calculator.symbols x = .fail .syntaxError x.pos) :
    Follows h Descent.misplaced (d.moved c) (d.reading s) P :=
  fun hd => position
    (fail (Cursor.outlook_misplaced hd hblank hread fun hnone => absurd hnone hsome)) hd

theorem misplaced_end (hpeek : c.peek = none)
    (hfinish : ∀ n, s.finish d.calculator.symbols n = .failure ⟨.syntaxError, n⟩) :
    Follows h Descent.misplaced (d.moved c) (d.reading s) P := by
  have hblank : ∀ ch ∈ c.peek, isBlank ch = false := by
    rw [hpeek]
    exact nofun
  have hread : ∀ x ∈ c.lexemes.head?,
      s.read d.calculator.symbols x = .fail .syntaxError x.pos := by
    rw [Cursor.lexemes_of_peek_eq_none hpeek]
    exact nofun
  exact fun hd => position (fail (Cursor.outlook_misplaced hd hblank hread fun _ => hfinish)) hd

theorem call {y : Call φ} {r : RunningSum} {es : List (Enclosure φ)} (hd : d.pending = none) :
    Follows h (Descent.call h y) d (d.taking h (.call y ⟨.operand, r, es⟩)) fun v d₁ e₁ =>
      d₁.pending = none ∧ e₁ = d₁.evaluation ((⟨.operand, r, es⟩ : State φ).resume (.ok v)) := by
  intro hwithin r₁ d₁ hon
  have hcall : some ((y.run h d.calculator).1.mapError Ending.fault,
      { d with calls := y :: d.calls, calculator := (y.run h d.calculator).2 }) =
        some (r₁, d₁) := hon
  simp only [Desk.taking]
  cases hrun : (y.run h d.calculator).1 with
  | ok v =>
    rw [hrun] at hcall
    cases hcall
    exact ⟨hwithin, _, ⟨hd, rfl⟩, rfl⟩
  | error f =>
    rw [hrun] at hcall
    cases hcall
    exact ⟨hwithin, (Cursor.outlook_ended ..).symm⟩

end Follows

end Descent

end Abacus.Formula
