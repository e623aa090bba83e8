import Abacus.Proofs.History.Atomicity

/-!
# Well-formed symbols

Every name that is bound is a letter followed by letters and digits, and every function takes a
number of arguments between 0 and the limit. Operations on a calculator preserve this together with
the limit, whether they succeed or not.
-/
namespace Abacus

variable {φ ε : Type}

namespace Symbols

structure WellFormed (limit : Int) (s : Symbols φ) : Prop where
  limit_eq : s.limit = limit
  isName_of_contains : ∀ x, s.contains x → isName x
  arity_of_routine? : ∀ x f, s.routine? x = some f → 0 ≤ f.arity ∧ f.arity ≤ limit

theorem contains_iff {s : Symbols φ} {x : String} :
    s.contains x ↔ (∃ n, s.value? x = some n) ∨ ∃ f, s.routine? x = some f := by
  rw [contains, Bool.or_eq_true, contains_values, contains_routines, Option.isSome_iff_exists,
    Option.isSome_iff_exists]

theorem eq_some_of_erase {β : Type} {t : Std.ExtTreeMap String β} {x y : String} {b : β}
    (h : (t.erase x)[y]? = some b) : t[y]? = some b := by
  rw [Std.ExtTreeMap.getElem?_erase] at h
  split at h
  · cases h
  · exact h

namespace WellFormed

variable {limit : Int} {s s' : Symbols φ} {x : String}

theorem empty (limit : Int) : ({ limit } : Symbols φ).WellFormed limit := by
  refine ⟨rfl, fun x hx => ?_, fun x f hf => ?_⟩
  · rcases contains_iff.mp hx with ⟨n, hn⟩ | ⟨f, hf⟩
    · cases hn
    · cases hf
  · cases hf

theorem putVariable (h : s.WellFormed limit) (hx : isName x) (n : Int) :
    (s.putVariable x n).WellFormed limit := by
  refine ⟨h.limit_eq, fun y hy => ?_, fun y f hf => ?_⟩
  · by_cases hxy : x = y
    · exact hxy ▸ hx
    · rw [contains_iff, value?_putVariable, routine?_putVariable, if_neg hxy, if_neg hxy] at hy
      exact h.isName_of_contains y (contains_iff.mpr hy)
  · by_cases hxy : x = y
    · rw [routine?_putVariable, if_pos hxy] at hf
      cases hf
    · rw [routine?_putVariable, if_neg hxy] at hf
      exact h.arity_of_routine? y f hf

theorem putFunction (h : s.WellFormed limit) (hx : isName x) {f : Routine φ}
    (hf : 0 ≤ f.arity ∧ f.arity ≤ s.limit) : (s.putFunction x f).WellFormed limit := by
  refine ⟨h.limit_eq, fun y hy => ?_, fun y g hg => ?_⟩
  · by_cases hxy : x = y
    · exact hxy ▸ hx
    · rw [contains_iff, value?_putFunction, routine?_putFunction, if_neg hxy, if_neg hxy] at hy
      exact h.isName_of_contains y (contains_iff.mpr hy)
  · by_cases hxy : x = y
    · rw [routine?_putFunction, if_pos hxy] at hg
      obtain rfl := Option.some.inj hg
      exact h.limit_eq ▸ hf
    · rw [routine?_putFunction, if_neg hxy] at hg
      exact h.arity_of_routine? y g hg

theorem putFunctions (h : s.WellFormed limit) {fs : List Standard}
    (hfs : ∀ f ∈ fs, (f.arity : Int) ≤ s.limit) :
    (fs.foldl (fun s f => s.putFunction f.name f.routine) s).WellFormed limit := by
  induction fs generalizing s with
  | nil => exact h
  | cons f fs ih =>
    obtain ⟨hf, hfs⟩ := List.forall_mem_cons.mp hfs
    exact ih (h.putFunction f.isName_name ⟨Int.natCast_nonneg _, hf⟩) hfs

theorem of_le (h : s.WellFormed limit) (hlimit : s'.limit = s.limit)
    (hvalue : ∀ x n, s'.value? x = some n → s.value? x = some n)
    (hroutine : ∀ x f, s'.routine? x = some f → s.routine? x = some f) :
    s'.WellFormed limit := by
  refine ⟨hlimit.trans h.limit_eq, fun x hx => ?_,
    fun x f hf => h.arity_of_routine? x f (hroutine x f hf)⟩
  refine h.isName_of_contains x (contains_iff.mpr ?_)
  exact (contains_iff.mp hx).imp (Exists.imp (hvalue x)) (Exists.imp (hroutine x))

theorem remove (h : s.WellFormed limit) (x : String) : (s.remove x).2.WellFormed limit := by
  refine h.of_le (s.limit_remove x) ?_ ?_
  · intro y n hn
    unfold Symbols.remove at hn
    split at hn
    · exact eq_some_of_erase hn
    · split at hn <;> exact hn
  · intro y f hf
    unfold Symbols.remove at hf
    split at hf
    · exact hf
    · split at hf
      · exact eq_some_of_erase hf
      · exact hf

theorem setVariable (h : s.WellFormed limit) {name value : Datum} {previous : Option Int}
    (hs : s.setVariable name value = .ok (previous, s')) : s'.WellFormed limit := by
  rcases s.setVariable_cases name value with ⟨e, he⟩ | ⟨x, n, hx, -, -, hok⟩
  · rw [he] at hs
    cases hs
  · rw [hok] at hs
    cases hs
    exact h.putVariable hx n

theorem setFunction (h : s.WellFormed limit) {name : Datum} {offer : Offer φ}
    {arity : Option Int} (hs : s.setFunction name offer arity = .ok s') :
    s'.WellFormed limit := by
  rcases s.setFunction_cases name offer arity with ⟨e, he⟩ | ⟨x, f, hx, -, -, hlow, hhigh, hok⟩
  · rw [he] at hs
    cases hs
  · rw [hok] at hs
    cases hs
    exact h.putFunction hx ⟨hlow, hhigh⟩

theorem install (h : s.WellFormed limit) {names : List String}
    (hs : s.install names = .ok s') : s'.WellFormed limit := by
  by_cases hunknown : Standard.Unknown names
  · obtain ⟨e, he⟩ := s.install_of_unknown hunknown
    rw [he] at hs
    cases hs
  · by_cases hwide : s.TooWide names
    · obtain ⟨wide, he⟩ := Symbols.install_of_tooWide hunknown hwide
      exact absurd (he.symm.trans hs) (bind_throw_ne_ok _ _ _)
    · rw [Symbols.install_of_admitted hunknown hwide] at hs
      obtain rfl := Except.ok.inj hs
      exact h.putFunctions (arity_le_of_not_tooWide hwide)

end WellFormed

end Symbols

section preserve

variable {limit : Int}

theorem Calculator.wellFormed_update {α : Type} {c : Calculator φ ε}
    {r : Except Fault (α × Symbols φ)} (hc : c.symbols.WellFormed limit)
    (hr : ∀ a s, r = .ok (a, s) → s.WellFormed limit) :
    (c.update r).2.symbols.WellFormed limit := by
  cases r with
  | error e => exact hc
  | ok r => exact hr r.1 r.2 rfl

theorem Symbols.eq_ok_of_map {r : Except Fault (Symbols φ)} {a : Unit} {s : Symbols φ}
    (h : r.map ((), ·) = .ok (a, s)) : r = .ok s := by
  cases r with
  | error e => cases h
  | ok s' => exact congrArg Except.ok (congrArg Prod.snd (Except.ok.inj h))

theorem Operation.perform_wellFormed (o : Operation φ) {c : Calculator φ ε}
    (hc : c.symbols.WellFormed limit) : (o.perform c).2.symbols.WellFormed limit := by
  cases o with
  | bindVariable name value => exact c.wellFormed_update hc fun a s hs => hc.setVariable hs
  | set name value => exact c.wellFormed_update hc fun a s hs => hc.setVariable hs
  | bindFunction name offer arity =>
    exact c.wellFormed_update hc fun a s hs => hc.setFunction (Symbols.eq_ok_of_map hs)
  | install names =>
    exact c.wellFormed_update hc fun a s hs => hc.install (Symbols.eq_ok_of_map hs)
  | unbind x => exact hc.remove x

theorem Operation.record_wellFormed (o : Operation φ) (c : Calculator φ (Logged φ ε))
    (hc : c.symbols.WellFormed limit) : (o.record c).2.symbols.WellFormed limit :=
  o.perform_wellFormed hc

end preserve

/-- What the steps of a loop preserve that may raise a fault, the loop preserves. -/
theorem of_foldlM_ok {α β : Type} {P : β → Prop} {f : β → α → Except Fault β}
    (hf : ∀ b a b', P b → f b a = .ok b' → P b') {xs : List α} {b b' : β} (hb : P b)
    (h : xs.foldlM f b = .ok b') : P b' := by
  induction xs generalizing b with
  | nil => exact Except.ok.inj h ▸ hb
  | cons x xs ih =>
    rw [List.foldlM_cons] at h
    cases hx : f b x with
    | error e =>
      rw [hx] at h
      cases h
    | ok b₁ =>
      rw [hx] at h
      exact ih (hf b x b₁ hb hx) h

theorem Configuration.wellFormed_symbols {c : Configuration} {s : Symbols φ}
    (hs : c.symbols = .ok s) : s.WellFormed c.limit := by
  refine of_foldlM_ok (fun s b s' hwell hok => ?_) (Symbols.WellFormed.empty c.limit) hs
  cases hset : s.setVariable (.text b.1) b.2 with
  | error e =>
    simp only [hset] at hok
    cases hok
  | ok r =>
    simp only [hset] at hok
    obtain rfl : r.2 = s' := Except.ok.inj hok
    exact hwell.setVariable hset

/-- The symbols of a calculator for one use have the limit of a calculator that is not told
otherwise. -/
theorem Symbols.wellFormed_ofBindings {bindings : List (String × Datum)}
    {functions : List (String × Offer φ)} {s : Symbols φ}
    (hs : Symbols.ofBindings bindings functions = .ok s) : s.WellFormed defaultLimit := by
  unfold ofBindings at hs
  cases hfirst : ({ bindings } : Configuration).symbols (φ := φ) with
  | error e =>
    rw [hfirst] at hs
    cases hs
  | ok s₀ =>
    rw [hfirst] at hs
    exact of_foldlM_ok (fun s b s' hwell hok => hwell.setFunction hok)
      (Configuration.wellFormed_symbols hfirst) hs

end Abacus
