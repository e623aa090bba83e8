import Abacus.Proofs.Descent.Progress

/-!
# A descent looks at one character beyond what it has passed over

What a computation does on a desk is settled by the text up to the character at which the cursor
comes to stand, that character included: on every other text that agrees so far it does the same
(`local_run`).
-/
namespace Abacus

/-- The run at the beginning of a list is settled by the run and one element behind it. -/
theorem takeWhile_of_take {α : Type} {p : α → Bool} {s s' : List α}
    (h : s'.take ((s.takeWhile p).length + 1) = s.take ((s.takeWhile p).length + 1)) :
    s'.takeWhile p = s.takeWhile p := by
  induction s generalizing s' with
  | nil =>
    rw [List.take_nil, List.take_eq_nil_iff] at h
    rw [h.resolve_left (Nat.succ_ne_zero _)]
  | cons a s ih =>
    cases s' with
    | nil => cases h
    | cons b s' =>
      obtain ⟨rfl, hs⟩ := List.cons.inj h
      by_cases hb : p b
      · rw [List.takeWhile_cons_of_pos hb, List.length_cons] at hs
        rw [List.takeWhile_cons_of_pos hb, List.takeWhile_cons_of_pos hb, ih hs]
      · rw [List.takeWhile_cons_of_neg hb, List.takeWhile_cons_of_neg hb]

theorem length_le_iff_of_take {α : Type} {s s' : List α} {n : Nat}
    (h : s'.take (n + 1) = s.take (n + 1)) : s'.length ≤ n ↔ s.length ≤ n := by
  have hlength := congrArg List.length h
  rw [List.length_take, List.length_take] at hlength
  omega

theorem getElem?_of_take {α : Type} {s s' : List α} {n : Nat}
    (h : s'.take (n + 1) = s.take (n + 1)) : s'[n]? = s[n]? := by
  have hlt := Nat.lt_succ_self n
  rw [← List.getElem?_take_of_lt hlt, h, List.getElem?_take_of_lt hlt]

theorem take_of_le {α : Type} {s s' : List α} {m n : Nat} (hmn : m ≤ n)
    (h : s'.take n = s.take n) : s'.take m = s.take m := by
  rw [← Nat.min_eq_left hmn, ← List.take_take, h, List.take_take]

theorem Base.announced_cons_cons (a b : Char) (s s' : List Char) :
    announced (a :: b :: s') = announced (a :: b :: s) := by
  unfold announced
  split <;> simp_all

theorem Base.announced_of_take {s s' : List Char} (h : s'.take 2 = s.take 2) :
    announced s' = announced s := by
  match s, s', h with
  | [], [], _ => rfl
  | [a], [b], h => rw [(List.cons.inj h).1]
  | a :: b :: s, a' :: b' :: s', h =>
    obtain ⟨ha, hb⟩ := List.cons.inj h
    rw [ha, (List.cons.inj hb).1]
    exact announced_cons_cons a b s s'

theorem Base.announced_of_ne {a : Char} (ha : a ≠ '0') (s : List Char) :
    announced (a :: s) = (decimal, 0) := by
  unfold announced
  split <;> simp_all

namespace Numeral

theorem length_leading_pos (s : List Char) : 0 < (leading ('0' :: s)).length := by
  have hzero : ∀ b : Base, b.isDigit '0' := by
    rintro (_ | _ | _) <;> rfl
  simp only [leading, length]
  cases (Base.announced ('0' :: s)).2 with
  | zero =>
    rw [List.drop_zero, List.takeWhile_cons_of_pos (hzero _), List.length_cons]
    omega
  | succ m => omega

theorem announced_of_take {s s' : List Char}
    (h : s'.take ((leading s).length + 1) = s.take ((leading s).length + 1)) :
    Base.announced s' = Base.announced s := by
  by_cases hlength : 1 ≤ (leading s).length
  · exact Base.announced_of_take (take_of_le (Nat.succ_le_succ hlength) h)
  · have h := take_of_le (Nat.succ_le_succ (Nat.zero_le _)) h
    cases s with
    | nil =>
      rw [List.take_nil, List.take_eq_nil_iff] at h
      rw [h.resolve_left (Nat.succ_ne_zero _)]
    | cons a s =>
      cases s' with
      | nil => cases h
      | cons b s' =>
        obtain rfl : b = a := (List.cons.inj h).1
        have hne : b ≠ '0' := by
          rintro rfl
          exact hlength (length_leading_pos s)
        rw [Base.announced_of_ne hne, Base.announced_of_ne hne]

/-- A numeral is settled by its marker, its digits and one character behind them. -/
theorem leading_of_take {s s' : List Char}
    (h : s'.take ((leading s).length + 1) = s.take ((leading s).length + 1)) :
    leading s' = leading s := by
  have hdigits : (s'.drop (Base.announced s).2).takeWhile (Base.announced s).1.isDigit =
      (s.drop (Base.announced s).2).takeWhile (Base.announced s).1.isDigit := by
    refine takeWhile_of_take ?_
    rw [List.take_drop, List.take_drop]
    exact congrArg (List.drop _) h
  simp only [leading, announced_of_take h, hdigits]

theorem read_of_take {s s' : List Char}
    (h : s'.take ((leading s).length + 1) = s.take ((leading s).length + 1)) :
    read s' = read s := by
  have hnext : (s'.drop (leading s).length).head? = (s.drop (leading s).length).head? := by
    rw [List.head?_drop, List.head?_drop, getElem?_of_take h]
  simp only [read, leading_of_take h, hnext]

end Numeral

namespace Cursor

variable {α : Type}

/-- A step of the cursor goes onward and is settled by the text up to where it ends, and the
character there. -/
structure Local (f : Cursor → α × Cursor) : Prop where
  onward (c : Cursor) : c.Onward (f c).2
  congr (c : Cursor) {text : List Char}
    (h : text.take ((f c).2.pos + 1) = c.text.take ((f c).2.pos + 1)) :
    f ⟨text, c.pos⟩ = ((f c).1, ⟨text, (f c).2.pos⟩)

theorem take_rest {c : Cursor} {text : List Char} {n : Nat}
    (h : text.take (c.pos + n) = c.text.take (c.pos + n)) :
    (Cursor.mk text c.pos).rest.take n = c.rest.take n := by
  rw [rest, rest, List.take_drop, List.take_drop]
  exact congrArg (List.drop c.pos) h

theorem local_position : Local fun c => (c.pos, c) where
  onward := .refl
  congr _ _ _ := rfl

theorem local_takeWhile (p : Char → Bool) : Local (Cursor.takeWhile · p) where
  onward c := c.onward_takeWhile p
  congr c text h := by
    have hrun := takeWhile_of_take (take_rest h)
    simp only [takeWhile, hrun]
    rfl

theorem atEnd_of_take {c : Cursor} {text : List Char}
    (h : text.take (c.pos + 1) = c.text.take (c.pos + 1)) :
    (Cursor.mk text c.pos).atEnd = c.atEnd := decide_eq_decide.mpr (length_le_iff_of_take h)

theorem peek_of_take {c : Cursor} {text : List Char}
    (h : text.take (c.pos + 1) = c.text.take (c.pos + 1)) :
    (Cursor.mk text c.pos).peek = c.peek := by
  rw [peek, peek, rest, rest, List.head?_drop, List.head?_drop]
  exact getElem?_of_take h

theorem local_skipBlanks : Local skipBlanks where
  onward := onward_skipBlanks
  congr c text h := by
    have hrun := takeWhile_of_take (take_rest h)
    have hend := atEnd_of_take h
    simp only [skipBlanks, hrun]
    exact Prod.ext (congrArg not hend) rfl

theorem local_peek : Local fun c => (c.peek, c) where
  onward := .refl
  congr _ _ h := Prod.ext (peek_of_take h) rfl

theorem local_takeAny (cs : List Char) : Local (Cursor.takeAny · cs) where
  onward c := c.onward_takeAny cs
  congr c text h := by
    have hle := Nat.succ_le_succ (c.onward_takeAny cs).le
    simp only [takeAny, peek_of_take (take_of_le hle h)]
    split
    · split <;> rfl
    · rfl

theorem local_takeShown (ch : Char) : Local (Cursor.takeShown · [ch]) where
  onward c := c.onward_takeShown ch
  congr c text h := by
    have hle := Nat.succ_le_succ (c.onward_takeShown ch).le
    simp only [takeShown, peek_of_take (take_of_le hle h)]
    split <;> rfl

theorem local_integer : Local integer where
  onward := onward_integer
  congr c text h := by
    have hread := Numeral.read_of_take (take_rest h)
    have hleading := Numeral.leading_of_take (take_rest h)
    simp only [integer, numeral, hread, hleading]
    rfl

end Cursor

namespace Formula

variable {φ ε α β : Type}

def Desk.onText (d : Desk φ ε) (text : List Char) : Desk φ ε :=
  { d with cursor := ⟨text, d.cursor.pos⟩ }

namespace Descent

structure Local (x : Descent φ ε α) : Prop where
  onward {d : Desk φ ε} {r d₁} (hx : x.on d = some (r, d₁)) : d.cursor.Onward d₁.cursor
  congr {d : Desk φ ε} {r d₁} (hx : x.on d = some (r, d₁)) {text : List Char}
    (h : text.take (d₁.cursor.pos + 1) = d.cursor.text.take (d₁.cursor.pos + 1)) :
    x.on (d.onText text) = some (r, d₁.onText text)

theorem on_bind_cases {x : Descent φ ε α} {f : α → Descent φ ε β} {d d₂ : Desk φ ε}
    {r : Except Ending β} (h : on (x >>= f) d = some (r, d₂)) :
    (∃ a d₁, x.on d = some (.ok a, d₁) ∧ (f a).on d₁ = some (r, d₂)) ∨
      ∃ e, r = .error e ∧ x.on d = some (.error e, d₂) := by
  rw [on_bind] at h
  cases hx : x.on d with
  | none =>
    rw [hx] at h
    cases h
  | some p =>
    obtain ⟨r₁, d₁⟩ := p
    rw [hx] at h
    cases r₁ with
    | ok a => exact .inl ⟨a, d₁, rfl, h⟩
    | error e =>
      cases h
      exact .inr ⟨e, rfl, rfl⟩

namespace Local

theorem bind {x : Descent φ ε α} {f : α → Descent φ ε β} (hx : x.Local)
    (hf : ∀ a, (f a).Local) : Local (x >>= f) where
  onward h := by
    rcases on_bind_cases h with ⟨a, d₁, h₁, h₂⟩ | ⟨e, -, h₁⟩
    · exact (hx.onward h₁).trans ((hf a).onward h₂)
    · exact hx.onward h₁
  congr {d r d₂} h text htext := by
    rcases on_bind_cases h with ⟨a, d₁, h₁, h₂⟩ | ⟨e, rfl, h₁⟩
    · have honward := (hf a).onward h₂
      have htext₂ : text.take (d₂.cursor.pos + 1) = d₁.cursor.text.take (d₂.cursor.pos + 1) := by
        rw [(hx.onward h₁).text, htext]
      rw [on_bind, hx.congr h₁ (take_of_le (Nat.succ_le_succ honward.le) htext)]
      exact (hf a).congr h₂ htext₂
    · rw [on_bind, hx.congr h₁ htext]

theorem exhausted : (Descent.exhausted : Descent φ ε α).Local := ⟨nofun, nofun⟩

theorem step {f : Desk φ ε → Except Ending α × Desk φ ε}
    (hcursor : ∀ d, (f d).2.cursor = d.cursor)
    (hf : ∀ d text, f (d.onText text) = ((f d).1, (f d).2.onText text)) :
    Local (Descent.step f) where
  onward {d r d₁} h := by
    obtain rfl : (f d).2 = d₁ := congrArg Prod.snd (Option.some.inj h)
    rw [hcursor]
    exact .refl _
  congr {d r d₁} h text _ := by
    obtain ⟨rfl, rfl⟩ : (f d).1 = r ∧ (f d).2 = d₁ := Prod.ext_iff.mp (Option.some.inj h)
    exact congrArg some (hf d text)

theorem pure (a : α) : Local (Pure.pure a : Descent φ ε α) := step (fun _ => rfl) fun _ _ => rfl

theorem fail (kind : ErrorKind) (pos : Nat) : Local (Descent.fail kind pos : Descent φ ε α) :=
  step (fun _ => rfl) fun _ _ => rfl

theorem moves {f : Cursor → β × Cursor} (hf : Cursor.Local f) (g : β → Except Ending α) :
    Local (Descent.step fun d : Desk φ ε =>
      (g (f d.cursor).1, { d with cursor := (f d.cursor).2 })) where
  onward {d r d₁} h := by
    cases h
    exact hf.onward d.cursor
  congr {d r d₁} h text htext := by
    cases h
    change some (g (f ⟨text, d.cursor.pos⟩).1,
      { d with cursor := (f ⟨text, d.cursor.pos⟩).2 }) = _
    rw [hf.congr d.cursor htext]
    rfl

theorem scan {f : Cursor → α × Cursor} (hf : Cursor.Local f) :
    Local (Descent.scan f : Descent φ ε α) := moves hf .ok

theorem integer : Local (Descent.integer : Descent φ ε Int) :=
  moves Cursor.local_integer (Except.map Int.ofNat)

theorem position : Local (Descent.position : Descent φ ε Nat) := scan Cursor.local_position

theorem peek : Local (Descent.peek : Descent φ ε (Option Char)) := scan Cursor.local_peek

theorem misplaced : Local (Descent.misplaced : Descent φ ε α) := position.bind fun _ => fail _ _

theorem ite {p : Prop} [Decidable p] {x y : Descent φ ε α} (hx : x.Local) (hy : y.Local) :
    Local (if p then x else y) := by
  split
  · exact hx
  · exact hy

end Local

end Descent

namespace Rule

open Descent

variable {h : Host φ ε} {enter : ∀ {β : Type}, Rule β → Descent φ ε β}

theorem local_body (henter : ∀ {β : Type} (r : Rule β), (enter r).Local) (r : Rule α) :
    (r.body h enter).Local := by
  have hblanks : Local (scan Cursor.skipBlanks : Descent φ ε Bool) := .scan Cursor.local_skipBlanks
  have hany (cs : List Char) : Local (scan (Cursor.takeAny · cs) : Descent φ ε (Option Char)) :=
    .scan (Cursor.local_takeAny cs)
  have hshown (ch : Char) : Local (scan (Cursor.takeShown · [ch]) : Descent φ ε Bool) :=
    .scan (Cursor.local_takeShown ch)
  cases r with
  | sum =>
    rw [body]
    exact (henter product).bind fun v => henter (sumFrom v)
  | sumFrom v =>
    rw [body]
    refine hblanks.bind fun _ => .ite ((hany _).bind fun sign? => ?_) (.pure v)
    cases sign? with
    | none => exact .pure v
    | some sign => exact (henter product).bind fun w => henter (sumFrom _)
  | product =>
    rw [body]
    exact (henter (signed false)).bind fun v => henter (productFrom v)
  | productFrom v =>
    rw [body]
    refine hblanks.bind fun _ => .ite (.bind .position fun pos => (hany _).bind fun mark? => ?_)
      (.pure v)
    cases mark? with
    | none => exact .pure v
    | some mark =>
      refine (henter (signed false)).bind fun w => ?_
      split
      · exact henter (productFrom _)
      · exact .fail _ _
  | signed negate =>
    rw [body]
    refine hblanks.bind fun _ => .ite ((hany _).bind fun sign? => ?_) .misplaced
    cases sign? with
    | none => exact (henter operand).bind fun v => .pure _
    | some sign => exact henter (signed _)
  | operand =>
    rw [body]
    refine (henter primary).bind fun v => .bind (.step (fun _ => rfl) fun _ _ => rfl) ?_
    rintro (_ | ⟨name, pos⟩)
    · exact hblanks.bind fun _ => .bind .peek fun _ => .ite .misplaced (.pure v)
    · refine hblanks.bind fun _ => .bind (.step (fun _ => rfl) fun _ _ => rfl) fun s => ?_
      refine (hshown '(').bind fun _ => .ite ?_ (.fail _ _)
      split
      · refine (henter arguments).bind fun args => .ite (.bind .position fun _ => ?_) (.fail _ _)
        exact .step (fun _ => rfl) fun _ _ => rfl
      · exact .fail _ _
  | arguments =>
    rw [body]
    refine hblanks.bind fun _ => .ite ((hshown ')').bind fun _ => ?_) .misplaced
    exact .ite (.pure []) (henter (argumentsFrom []))
  | argumentsFrom args =>
    rw [body]
    refine (henter sum).bind fun v => hblanks.bind fun _ => .ite ?_ .misplaced
    refine (hshown ',').bind fun _ => .ite (henter (argumentsFrom _)) ?_
    exact (hshown ')').bind fun _ => .ite (.pure _) .misplaced
  | primary =>
    rw [body]
    refine hblanks.bind fun _ => .ite (.bind .position fun pos => ?_) .misplaced
    refine .bind .peek fun c => (hshown '(').bind fun _ => .ite ?_ ?_
    · refine (henter sum).bind fun v => hblanks.bind fun _ => .ite ?_ .misplaced
      exact (hshown ')').bind fun _ => .ite (.pure v) .misplaced
    · refine .ite .integer (.ite ?_ .misplaced)
      refine .bind (.scan (Cursor.local_takeWhile _)) fun name => ?_
      refine .bind (.step (fun _ => rfl) fun _ _ => rfl) fun s => ?_
      split
      · exact .pure _
      · exact .bind (.step (fun _ => rfl) fun _ _ => rfl) fun _ => .pure 0

theorem local_run (h : Host φ ε) (n : Nat) (r : Rule α) : (r.run h n).Local := by
  induction n generalizing α with
  | zero => exact .exhausted
  | succ n ih => exact local_body (fun r => ih r) r

end Rule

theorem local_formula (h : Host φ ε) (n : Nat) : (formula h n).Local :=
  (Rule.local_run h n .sum).bind fun v =>
    .bind (.scan Cursor.local_skipBlanks) fun _ => .ite .misplaced (.pure v)

end Formula

end Abacus
