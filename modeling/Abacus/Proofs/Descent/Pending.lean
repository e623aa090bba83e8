import Abacus.Proofs.Descent.Termination

/-!
# Pending names

A name that is no variable is pending from the place where it is read to the next step of the rule
that entered `primary`. Descents are looked at through a watch, which may change what each rule
does. A watch that stops a descent wherever a name is pending that should not be, or is not pending
that should be, changes nothing (`agree_watched_checked`), and neither does one that puts any number
in the place of the one that stands for a pending name (`watched_replaced`).
-/
namespace Abacus.Formula

variable {φ ε α β : Type}

/-- The name that stands behind the blanks at the cursor, with its position, if it is no
variable. -/
def Desk.unresolved (d : Desk φ ε) : Option (String × Nat) :=
  let c := d.cursor.skipBlanks.2
  let name := String.ofList (wordAt c.text c.pos)
  if isName name ∧ d.calculator.symbols.value? name = none then some (name, c.pos) else none

/-- From `d` to `d₁` the name `x`, which stands at `pos`, has been passed over to its end, with the
blanks before it and with nothing else. -/
structure Desk.HasRead (d d₁ : Desk φ ε) (x : String) (pos : Nat) : Prop where
  isName : isName x
  start : pos = d.cursor.skipBlanks.2.pos
  word : x.toList = wordAt d.cursor.text pos
  stop : d₁.cursor = ⟨d.cursor.text, pos + x.length⟩

namespace Rule

open Descent

/-- What is to be pending where a rule returns that has been entered on the desk `d`. -/
def pending (d : Desk φ ε) : Rule α → Option (String × Nat)
  | primary => d.unresolved
  | _ => none

def watched (watch : ∀ {β : Type}, Rule β → Descent φ ε β → Descent φ ε β) (h : Host φ ε) :
    Nat → ∀ {α : Type}, Rule α → Descent φ ε α
  | 0, _, _ => exhausted
  | fuel + 1, _, r => watch r (r.body h (watched watch h fuel))

/-- Has no result if a name is pending where the rule is entered, or if something else is pending
where it returns than is to be. -/
def checked (r : Rule α) (x : Descent φ ε α) : Descent φ ε α := do
  let d ← step fun d => (.ok d, d)
  if d.pending = none then
    let v ← x
    let d₁ ← step fun d₁ => (.ok d₁, d₁)
    if d₁.pending = r.pending d then return v else exhausted
  else exhausted

/-- Gives `k` in the place of the value that `primary` returns with a name pending. -/
def replaced (k : Desk φ ε → Int) : Rule α → Descent φ ε α → Descent φ ε α
  | primary, x => do
    let v ← x
    step fun d => (.ok (if d.pending = none then v else k d), d)
  | _, x => x

end Rule

def formulaBy (enter : ∀ {β : Type}, Rule β → Descent φ ε β) : Descent φ ε Int := do
  let v ← enter .sum
  if ← Descent.scan Cursor.skipBlanks then Descent.misplaced else return v

namespace Descent

structure Alike (x y : Descent φ ε α) (d : Desk φ ε) (Q : α → Desk φ ε → Prop) : Prop where
  eq : x.on d = y.on d
  returns : ∀ v d₁, y.on d = some (.ok v, d₁) → Q v d₁

namespace Alike

variable {d d₁ : Desk φ ε} {x y : Descent φ ε α} {f g : α → Descent φ ε β}
  {P : α → Desk φ ε → Prop} {Q : β → Desk φ ε → Prop}

theorem bind (hx : x.Alike y d P) (hf : ∀ v d₁, P v d₁ → (f v).Alike (g v) d₁ Q) :
    Alike (x >>= f) (y >>= g) d Q where
  eq := by
    rw [on_bind, on_bind, hx.eq]
    rcases hy : y.on d with _ | ⟨_ | v, d₁⟩
    · rfl
    · rfl
    · exact (hf v d₁ (hx.returns v d₁ hy)).eq
  returns w d₂ hon := by
    rcases on_bind_cases hon with ⟨v, d₁, hy, hg⟩ | ⟨e, he, -⟩
    · exact (hf v d₁ (hx.returns v d₁ hy)).returns w d₂ hg
    · cases he

theorem pure {v : α} (hv : P v d) : Alike (Pure.pure v) (Pure.pure v) d P where
  eq := rfl
  returns := by
    rintro _ _ ⟨⟩
    exact hv

theorem fail (kind : ErrorKind) (pos : Nat) :
    Alike (Descent.fail kind pos) (Descent.fail kind pos) d P := ⟨rfl, nofun⟩

theorem misplaced : Alike Descent.misplaced Descent.misplaced d P := ⟨rfl, nofun⟩

theorem step {s : Desk φ ε → Except Ending α × Desk φ ε}
    (hs : ∀ v, (s d).1 = .ok v → P v (s d).2) :
    Alike (Descent.step s) (Descent.step s) d P where
  eq := rfl
  returns v d₁ hon := by
    obtain ⟨hv, rfl⟩ := Prod.mk.inj (Option.some.inj hon)
    exact hs v hv

theorem step_bind {s : Desk φ ε → Except Ending α × Desk φ ε} {v : α} (hs : s d = (.ok v, d₁))
    (hf : (f v).Alike (g v) d₁ Q) : Alike (Descent.step s >>= f) (Descent.step s >>= g) d Q := by
  have hstep : (Descent.step s).on d = some (.ok v, d₁) := congrArg some hs
  refine bind (P := fun w d₂ => w = v ∧ d₂ = d₁) ⟨rfl, fun w d₂ hon => ?_⟩ ?_
  · obtain ⟨hw, hd₂⟩ := Prod.mk.inj (Option.some.inj (hon.symm.trans hstep))
    exact ⟨Except.ok.inj hw, hd₂⟩
  · rintro _ _ ⟨rfl, rfl⟩
    exact hf

theorem scan {s : Cursor → α × Cursor}
    (hf : (f (s d.cursor).1).Alike (g (s d.cursor).1) (d.moved (s d.cursor).2) Q) :
    Alike (Descent.scan s >>= f) (Descent.scan s >>= g) d Q := step_bind rfl hf

end Alike

end Descent

section unresolved

variable {d : Desk φ ε}

theorem isName_wordAt_iff (c : Cursor) :
    isName (String.ofList (wordAt c.text c.pos)) ↔ c.peek.any Char.isAlpha := by
  constructor
  · intro hname
    obtain ⟨ch, cs, hword, halpha, -⟩ := Identifier.exists_cons ⟨_, hname⟩
    rw [String.toList_ofList] at hword
    have hbegins : ch :: cs <+: c.rest := hword ▸ List.takeWhile_prefix Char.isAlphanum
    obtain ⟨rest, hrest⟩ := hbegins
    rw [Cursor.peek, ← hrest]
    exact halpha
  · intro hpeek
    obtain ⟨ch, hpeek, halpha⟩ := (Option.any_eq_true _ _).mp hpeek
    obtain ⟨x, hx⟩ := Cursor.exists_identifier hpeek halpha
    rw [← hx, String.ofList_toList]
    exact x.isName

theorem Desk.unresolved_eq_some_iff {x : String} {pos : Nat} :
    d.unresolved = some (x, pos) ↔
      isName x ∧ pos = d.cursor.skipBlanks.2.pos ∧ x.toList = wordAt d.cursor.text pos ∧
        d.calculator.symbols.value? x = none := by
  simp only [unresolved, Option.ite_none_right_eq_some, Option.some.injEq, Prod.mk.injEq]
  constructor
  · rintro ⟨⟨hname, hvalue⟩, rfl, rfl⟩
    exact ⟨hname, rfl, String.toList_ofList, hvalue⟩
  · rintro ⟨hname, rfl, hword, hvalue⟩
    have hx : String.ofList (wordAt d.cursor.text d.cursor.skipBlanks.2.pos) = x := by
      rw [← hword, String.ofList_toList]
    exact ⟨⟨hx ▸ hname, hx ▸ hvalue⟩, hx, rfl⟩

theorem Desk.unresolved_eq_none (hd : ¬ d.cursor.skipBlanks.2.peek.any Char.isAlpha) :
    d.unresolved = none := if_neg fun h => hd ((isName_wordAt_iff _).mp h.1)

theorem Descent.on_scan_bind (s : Cursor → α × Cursor) (f : α → Descent φ ε β) (d : Desk φ ε) :
    on (scan s >>= f) d = (f (s d.cursor).1).on (d.moved (s d.cursor).2) := rfl

theorem Descent.on_symbols_bind (f : Symbols φ → Descent φ ε β) (d : Desk φ ε) :
    on (symbols >>= f) d = (f d.calculator.symbols).on d := rfl

open Descent in
/-- Only `primary` reads names, and it does nothing else with one. -/
theorem Rule.on_primary_of_isAlpha {h : Host φ ε} {enter : ∀ {β : Type}, Rule β → Descent φ ε β}
    (hd : d.cursor.skipBlanks.2.peek.any Char.isAlpha) :
    (Rule.primary.body h enter).on d =
      some (.ok ((d.calculator.symbols.value? (String.ofList
          (wordAt d.cursor.text d.cursor.skipBlanks.2.pos))).getD 0),
        { d with
          cursor := (d.cursor.skipBlanks.2.takeWhile Char.isAlphanum).2
          pending := d.unresolved.or d.pending }) := by
  have hname := (isName_wordAt_iff _).mpr hd
  obtain ⟨ch, hpeek, halpha⟩ := (Option.any_eq_true _ _).mp hd
  have hmore : d.cursor.skipBlanks.1 = true := by
    rcases d.cursor.skipBlanks_cases with ⟨hmore, -⟩ | ⟨-, hnone⟩
    · exact hmore
    · cases hpeek.symm.trans hnone
  have hopens : d.cursor.skipBlanks.2.takeShown ['('] = (false, d.cursor.skipBlanks.2) := by
    rcases d.cursor.skipBlanks.2.takeShown_cases '(' with ⟨hopen, -⟩ | ⟨-, htake⟩
    · obtain rfl := Option.some.inj (hpeek.symm.trans hopen)
      cases halpha
    · exact htake
  have hdigit : ¬ d.cursor.skipBlanks.2.peek.any Char.isDigit := by
    obtain ⟨x, hx⟩ := Cursor.exists_identifier hpeek halpha
    have hhead := x.not_isDigit_head
    rw [hx, Cursor.wordAt_of_peek hpeek (Bool.or_eq_true_iff.mpr (.inl halpha))] at hhead
    rwa [hpeek]
  rw [body, on_scan_bind, hmore, if_pos rfl, position, on_scan_bind, peek, on_scan_bind,
    on_scan_bind]
  change Descent.on (if (d.cursor.skipBlanks.2.takeShown ['(']).1 = true then _ else _)
    (d.moved (d.cursor.skipBlanks.2.takeShown ['(']).2) = _
  rw [hopens, if_neg Bool.false_ne_true]
  change Descent.on (if d.cursor.skipBlanks.2.peek.any Char.isDigit then _ else
    if d.cursor.skipBlanks.2.peek.any Char.isAlpha then _ else _) (d.moved _) = _
  rw [if_neg hdigit, if_pos hd, on_scan_bind]
  dsimp only
  rw [on_symbols_bind]
  split
  · next v hvalue =>
    have hvalue : d.calculator.symbols.value? (String.ofList
        (wordAt d.cursor.text d.cursor.skipBlanks.2.pos)) = some v := hvalue
    have hunresolved : d.unresolved = none := if_neg fun h => by cases hvalue.symm.trans h.2
    rw [hvalue, hunresolved, Option.none_or]
    rfl
  · next hvalue =>
    have hvalue : d.calculator.symbols.value? (String.ofList
        (wordAt d.cursor.text d.cursor.skipBlanks.2.pos)) = none := hvalue
    have hunresolved : d.unresolved = some (_, _) := if_pos ⟨hname, hvalue⟩
    rw [hvalue, hunresolved, Option.some_or]
    rfl

end unresolved

namespace Rule

open Descent

/-- Entered with nothing pending, the rules come to the same in both ways, and what is to be pending
where they return is pending there. -/
def Agree (enter enter' : ∀ {β : Type}, Rule β → Descent φ ε β) : Prop :=
  ∀ {β : Type} (r : Rule β) (d : Desk φ ε), d.pending = none →
    (enter r).Alike (enter' r) d fun _ d₁ => d₁.pending = r.pending d

section alike

variable {h : Host φ ε} {enter enter' : ∀ {β : Type}, Rule β → Descent φ ε β} {d : Desk φ ε}

theorem alike_sum (henter : Agree @enter @enter') (hd : d.pending = none) :
    (sum.body h enter).Alike (sum.body h enter') d fun _ d₁ => d₁.pending = none := by
  rw [body, body]
  exact .bind (henter product d hd) fun v d₁ hd₁ => henter (sumFrom v) d₁ hd₁

theorem alike_sumFrom (henter : Agree @enter @enter') (v : Int) (hd : d.pending = none) :
    ((sumFrom v).body h enter).Alike ((sumFrom v).body h enter') d
      fun _ d₁ => d₁.pending = none := by
  rw [body, body]
  refine .scan ?_
  split
  · refine .scan ?_
    split
    · exact .bind (henter product _ hd) fun w d₁ hd₁ => henter (sumFrom _) d₁ hd₁
    · exact .pure hd
  · exact .pure hd

theorem alike_product (henter : Agree @enter @enter') (hd : d.pending = none) :
    (product.body h enter).Alike (product.body h enter') d fun _ d₁ => d₁.pending = none := by
  rw [body, body]
  exact .bind (henter (signed false) d hd) fun v d₁ hd₁ => henter (productFrom v) d₁ hd₁

theorem alike_productFrom (henter : Agree @enter @enter') (v : Int) (hd : d.pending = none) :
    ((productFrom v).body h enter).Alike ((productFrom v).body h enter') d
      fun _ d₁ => d₁.pending = none := by
  rw [body, body]
  refine .scan ?_
  split
  · refine .scan (.scan ?_)
    split
    · refine .bind (henter (signed false) _ hd) fun w d₁ hd₁ => ?_
      split
      · exact henter (productFrom _) d₁ hd₁
      · exact .fail _ _
    · exact .pure hd
  · exact .pure hd

theorem alike_signed (henter : Agree @enter @enter') (negate : Bool) (hd : d.pending = none) :
    ((signed negate).body h enter).Alike ((signed negate).body h enter') d
      fun _ d₁ => d₁.pending = none := by
  rw [body, body]
  refine .scan ?_
  split
  · refine .scan ?_
    split
    · exact henter (signed _) _ hd
    · exact .bind (henter operand _ hd) fun v d₁ hd₁ => .pure hd₁
  · exact .misplaced

/-- What `primary` leaves pending is taken at once. -/
theorem alike_operand (henter : Agree @enter @enter') (hd : d.pending = none) :
    (operand.body h enter).Alike (operand.body h enter') d fun _ d₁ => d₁.pending = none := by
  rw [body, body]
  refine .bind (henter primary d hd) fun v d₁ hd₁ => ?_
  refine .step_bind rfl ?_
  split
  · refine .scan (.scan ?_)
    split
    · exact .misplaced
    · exact .pure rfl
  · refine .scan (.step_bind rfl (.scan ?_))
    split
    · split
      · refine .bind (henter arguments _ rfl) fun args d₂ hd₂ => ?_
        split
        · exact .scan (.step fun _ _ => hd₂)
        · exact .fail _ _
      · exact .fail _ _
    · exact .fail _ _

theorem alike_arguments (henter : Agree @enter @enter') (hd : d.pending = none) :
    (arguments.body h enter).Alike (arguments.body h enter') d fun _ d₁ => d₁.pending = none := by
  rw [body, body]
  refine .scan ?_
  split
  · refine .scan ?_
    split
    · exact .pure hd
    · exact henter (argumentsFrom []) _ hd
  · exact .misplaced

theorem alike_argumentsFrom (henter : Agree @enter @enter') (args : List Int)
    (hd : d.pending = none) :
    ((argumentsFrom args).body h enter).Alike ((argumentsFrom args).body h enter') d
      fun _ d₁ => d₁.pending = none := by
  rw [body, body]
  refine .bind (henter sum d hd) fun v d₁ hd₁ => .scan ?_
  split
  · refine .scan ?_
    split
    · exact henter (argumentsFrom _) _ hd₁
    · refine .scan ?_
      split
      · exact .pure hd₁
      · exact .misplaced
  · exact .misplaced

theorem alike_primary (henter : Agree @enter @enter') (hd : d.pending = none) :
    (primary.body h enter).Alike (primary.body h enter') d
      fun _ d₁ => d₁.pending = d.unresolved := by
  by_cases halpha : d.cursor.skipBlanks.2.peek.any Char.isAlpha
  · refine ⟨by rw [on_primary_of_isAlpha halpha, on_primary_of_isAlpha halpha], ?_⟩
    intro v d₁ hon
    rw [on_primary_of_isAlpha halpha, hd, Option.or_none] at hon
    obtain ⟨-, rfl⟩ := Prod.mk.inj (Option.some.inj hon)
    rfl
  · rw [Desk.unresolved_eq_none halpha, body, body]
    refine .scan ?_
    split
    · refine .scan (.scan (.scan ?_))
      split
      · refine .bind (henter sum _ hd) fun v d₁ hd₁ => .scan ?_
        split
        · refine .scan ?_
          split
          · exact .pure hd₁
          · exact .misplaced
        · exact .misplaced
      · split
        · exact .step fun _ _ => hd
        · split
          · next h => exact absurd h halpha
          · exact .misplaced
    · exact .misplaced

theorem Agree.body (henter : Agree @enter @enter') (h : Host φ ε) :
    Agree (fun r => r.body h enter) (fun r => r.body h enter') := by
  intro β r d hd
  cases r with
  | sum => exact alike_sum henter hd
  | sumFrom v => exact alike_sumFrom henter v hd
  | product => exact alike_product henter hd
  | productFrom v => exact alike_productFrom henter v hd
  | signed negate => exact alike_signed henter negate hd
  | operand => exact alike_operand henter hd
  | arguments => exact alike_arguments henter hd
  | argumentsFrom args => exact alike_argumentsFrom henter args hd
  | primary => exact alike_primary henter hd

theorem Agree.checked (henter : Agree @enter @enter') :
    Agree (fun r => Rule.checked r (enter r)) enter' := by
  intro β r d hd
  have hr := henter r d hd
  refine ⟨?_, hr.returns⟩
  change (Rule.checked r (enter r)).on d = _
  rw [Rule.checked, on_bind]
  change Descent.on (if d.pending = none then _ else _) d = _
  rw [if_pos hd, on_bind, hr.eq]
  rcases hon : (enter' r).on d with _ | ⟨_ | v, d₁⟩
  · rfl
  · rfl
  · change Descent.on (if d₁.pending = r.pending d then _ else _) d₁ = _
    rw [if_pos (hr.returns v d₁ hon)]
    rfl

end alike

/-- Where rules are entered and where they return, nothing is pending but what is to be. -/
theorem agree_watched_checked (h : Host φ ε) (n : Nat) :
    Agree (watched checked h n) (run h n) := by
  induction n with
  | zero => exact fun _ _ _ => ⟨rfl, nofun⟩
  | succ n ih => exact Agree.checked (ih.body h)

/-- The number that stands for a pending name is read by `operand` only, which drops it. -/
theorem body_replaced (h : Host φ ε) (enter : ∀ {β : Type}, Rule β → Descent φ ε β)
    (k : Desk φ ε → Int) (r : Rule α) :
    r.body h (fun s => replaced k s (enter s)) = r.body h enter := by
  cases r with
  | operand =>
    rw [body, body, replaced, bind_assoc]
    refine bind_congr fun v => funext fun d => ?_
    obtain ⟨cursor, pending, calls, calculator⟩ := d
    cases pending with
    | none => rfl
    | some x => rfl
  | _ => rfl

theorem watched_replaced (h : Host φ ε) (k : Desk φ ε → Int) (n : Nat) (r : Rule α) :
    watched (replaced k) h n r = replaced k r (r.run h n) := by
  induction n generalizing α with
  | zero => cases r <;> rfl
  | succ n ih =>
    have hn : @watched φ ε (replaced k) h n = fun {β} s => replaced k s (s.run h n) :=
      funext fun β => funext fun s => ih s
    rw [watched, hn, body_replaced, run]

end Rule

section formula

variable {h : Host φ ε} {enter enter' : ∀ {β : Type}, Rule β → Descent φ ε β} {d d₁ : Desk φ ε}

theorem alike_formulaBy (henter : Rule.Agree @enter @enter') (hd : d.pending = none) :
    (formulaBy enter).Alike (formulaBy enter') d fun _ d₁ => d₁.pending = none := by
  rw [formulaBy, formulaBy]
  refine .bind (henter .sum d hd) fun v d₁ hd₁ => .scan ?_
  split
  · exact .misplaced
  · exact .pure hd₁

theorem formulaBy_watched_replaced (h : Host φ ε) (k : Desk φ ε → Int) (n : Nat) :
    formulaBy (Rule.watched (Rule.replaced k) h n) = formula h n := by
  rw [formulaBy, Rule.watched_replaced]
  rfl

/-- With a name pending `primary` returns zero, and the name is what it has read. -/
theorem hasRead_of_pending {n : Nat} {v : Int} {x : String} {pos : Nat} (hd : d.pending = none)
    (hon : (Rule.primary.run h n).on d = some (.ok v, d₁)) (hx : d₁.pending = some (x, pos)) :
    v = 0 ∧ d.HasRead d₁ x pos ∧ d.calculator.symbols.value? x = none := by
  have hunresolved : d.unresolved = some (x, pos) := by
    rw [← hx]
    exact ((Rule.agree_watched_checked h n .primary d hd).returns v d₁ hon).symm
  obtain ⟨hname, rfl, hword, hvalue⟩ := Desk.unresolved_eq_some_iff.mp hunresolved
  have hlist : String.ofList (wordAt d.cursor.text d.cursor.skipBlanks.2.pos) = x := by
    rw [← hword, String.ofList_toList]
  have halpha : d.cursor.skipBlanks.2.peek.any Char.isAlpha :=
    (isName_wordAt_iff _).mp (hlist ▸ hname)
  cases n with
  | zero => cases hon
  | succ n =>
    rw [Rule.run, Rule.on_primary_of_isAlpha halpha, hlist, hvalue] at hon
    obtain ⟨hv, rfl⟩ := Prod.mk.inj (Option.some.inj hon)
    refine ⟨(Except.ok.inj hv).symm, ⟨hname, rfl, hword, ?_⟩, hvalue⟩
    rw [← String.length_toList, hword]
    rfl

end formula

/-- A name is pending only from where `primary` reads it to where it is taken, and what `primary`
returns with it is never used. Whatever rule is entered with nothing pending leaves nothing pending
where it returns, but `primary` leaves a name with its position, and returns zero, exactly if it has
read that name and the name is no variable. Evaluation is a descent in which these conditions hold
wherever a rule is entered or returns, and in which any number may be returned in the place of that
zero. -/
theorem pending_resolved (h : Host φ ε) :
    (∀ {α : Type} (r : Rule α) (n : Nat) (d d₁ : Desk φ ε) (v : α), d.pending = none →
        (r.run h n).on d = some (.ok v, d₁) → d₁.pending = r.pending d) ∧
      (∀ (n : Nat) (d d₁ : Desk φ ε) (v : Int), d.pending = none →
        (Rule.primary.run h n).on d = some (.ok v, d₁) →
          (∀ x pos, d₁.pending = some (x, pos) ↔
            d.HasRead d₁ x pos ∧ d.calculator.symbols.value? x = none) ∧
          (d₁.pending.isSome → v = 0)) ∧
      ∀ (c : Calculator φ ε) (t : String), ∃ res d,
        (∀ n, fuelFor t.toList ≤ n →
          let start : Desk φ ε := { cursor := ⟨t.toList, 0⟩, calculator := c }
          (formula h n).on start = some (res, d) ∧
            (formulaBy (Rule.watched Rule.checked h n)).on start = some (res, d) ∧
            ∀ k, (formulaBy (Rule.watched (Rule.replaced k) h n)).on start = some (res, d)) ∧
        c.eval h (.text t) = ((Ending.ofResult res).toOutcome, d.calculator) ∧
        (evaluation h t.toList c).calls = d.calls := by
  refine ⟨fun r n d d₁ v hd hon => ?_, fun n d d₁ v hd hon => ⟨fun x pos => ?_, fun hsome => ?_⟩,
    fun c t => ?_⟩
  · exact (Rule.agree_watched_checked h n r d hd).returns v d₁ hon
  · refine ⟨fun hx => (hasRead_of_pending hd hon hx).2, fun ⟨hread, hvalue⟩ => ?_⟩
    rw [(Rule.agree_watched_checked h n .primary d hd).returns v d₁ hon]
    exact Desk.unresolved_eq_some_iff.mpr ⟨hread.isName, hread.start, hread.word, hvalue⟩
  · obtain ⟨⟨x, pos⟩, hx⟩ := Option.isSome_iff_exists.mp hsome
    exact (hasRead_of_pending hd hon hx).1
  · obtain ⟨res, d, hd, -, -⟩ := exists_descend h t.toList c
    obtain ⟨heval, hcalls⟩ := evaluation_of_formula hd
    refine ⟨res, d, fun n hn => ?_, ?_, hcalls⟩
    · have hformula := refines_formula h hn _ _ hd
      refine ⟨hformula, ?_, fun k => ?_⟩
      · rw [(alike_formulaBy (Rule.agree_watched_checked h n) rfl).eq]
        exact hformula
      · rw [formulaBy_watched_replaced]
        exact hformula
    · simp only [Calculator.eval, heval]

end Abacus.Formula
